import Mathlib

/-!
Reading the configuration files (`configreader.cpp`).

`readConfig` goes through the custom, the home and the global file. In each one
`parseConfigFile` looks for the `[default]` block and the block of the application,
in whatever order they stand; `parseConfigBlock` gives an option its value only if it
is not in the vector of options read so far. The default block of a file that has no
application block before it is parsed with a copy of that vector, which is appended
to the vector afterwards. `unique` without `erase` removes nothing, so an option can
stand in the vector many times, and its length, which decides whether the next file
is read at all, overestimates the number of options read.

`precedence_iff` says for all contents of the files when this does no harm.

The regular expressions of the values and of the application's block are parameters
(`Matcher`). A file is the list of its lines; it is taken to be shorter than `2 ^ 32`
bytes, so that the `unsigned int` that remembers a position in it holds that position.
-/

namespace Rambrain.ConfigReader

abbrev Line := List Char

/-! ### Options and regular expressions -/

/-- `configuration::configOptions`. -/
inductive ConfigOption where
  | memoryManager
  | swap
  | swapfiles
  | memory
  | swapMemory
  | enableDMA
  | policy
  deriving DecidableEq, Repr

def configOptions : List ConfigOption :=
  [.memoryManager, .swap, .swapfiles, .memory, .swapMemory, .enableDMA, .policy]

/-- `configLineBase::name`. -/
def ConfigOption.name : ConfigOption → Line
  | memoryManager => ['m', 'e', 'm', 'o', 'r', 'y', 'M', 'a', 'n', 'a', 'g', 'e', 'r']
  | swap => ['s', 'w', 'a', 'p']
  | swapfiles => ['s', 'w', 'a', 'p', 'f', 'i', 'l', 'e', 's']
  | memory => ['m', 'e', 'm', 'o', 'r', 'y']
  | swapMemory => ['s', 'w', 'a', 'p', 'M', 'e', 'm', 'o', 'r', 'y']
  | enableDMA => ['e', 'n', 'a', 'b', 'l', 'e', 'D', 'M', 'A']
  | policy => ['p', 'o', 'l', 'i', 'c', 'y']

/-- `configLineBase::matchType`. -/
inductive MatchType where
  | text
  | swapfilename
  | floatingUnits
  | integerBoolean
  deriving DecidableEq, Repr

def ConfigOption.matchType : ConfigOption → MatchType
  | memoryManager | swap | policy => .text
  | swapfiles => .swapfilename
  | memory | swapMemory => .floatingUnits
  | enableDMA => .integerBoolean

/-- The regular expressions that depend on the value type or on the name of the
application, and the replacement of `~`. -/
structure Matcher where
  /-- The text of a value of the given type, from what stands after the equals sign. -/
  value : MatchType → Line → Option Line
  /-- The rest of a block header, after the opening bracket, names the application. -/
  appName : Line → Bool
  substituteHomeDir : Line → Line

def isSpace (c : Char) : Bool := c = ' ' || ('\t' ≤ c && c ≤ '\r')

/-- `stripLeadingTrailingWhitespace`. -/
def strip (line : Line) : Line := ((line.dropWhile isSpace).reverse.dropWhile isSpace).reverse

/-- `matchConfigBlock ( line )`, for a stripped line. -/
def matchDefault (line : Line) : Bool :=
  line = ['[', 'd', 'e', 'f', 'a', 'u', 'l', 't', ']']

/-- `matchConfigBlock ( line, appName )`, for a stripped line. -/
def matchApp (m : Matcher) : Line → Bool
  | '[' :: rest => m.appName rest
  | _ => false

/-- `matchKeyEqualsValue ( line, cl->name, cl->matchType )`: the key is a word and no
value contains an equals sign, so the line is split at its first one. -/
def matchKeyEqualsValue (m : Matcher) (line : Line) (cl : ConfigOption) : Option Line :=
  match line.dropWhile (· ≠ '=') with
  | [] => none
  | _ :: value =>
      if strip (line.takeWhile (· ≠ '=')) = cl.name then m.value cl.matchType value else none

/-! ### Streams -/

/-- What is left of an `ifstream`, and its state flags. -/
structure Stream where
  rest : List Line
  /-- The last line ends with a newline. -/
  finalNewline : Bool
  eof : Bool
  fail : Bool
  deriving DecidableEq, Repr

def Stream.good (s : Stream) : Bool := !s.eof && !s.fail

/-- `getline`: an empty line and both flags when nothing is left. -/
def Stream.getline (s : Stream) : Line × Stream :=
  match s.rest with
  | [] => ([], { s with eof := true, fail := true })
  | [line] => (line, { s with rest := [], eof := !s.finalNewline })
  | line :: rest => (line, { s with rest := rest })

/-- `tellg`: a position is what is left from it on; at the end of the file it fails. -/
def Stream.tellg (s : Stream) : List Line × Stream :=
  if s.good then (s.rest, s) else (s.rest, { s with fail := true })

/-- `seekg` clears `eofbit`, but does nothing on a stream that has failed. -/
def Stream.seekg (s : Stream) (position : List Line) : Stream :=
  if s.fail then { s with eof := false } else { s with rest := position, eof := false }

/-! ### The parser -/

/-- The vector of options read so far, and the text each option was last set to. -/
structure Reading where
  readLines : List ConfigOption
  value : ConfigOption → Option Line

/-- The loop over `configOptions` for one line. -/
def parseLine (m : Matcher) (line : Line) : List ConfigOption → Reading → Reading
  | [], r => r
  | cl :: rest, r =>
      match matchKeyEqualsValue m line cl with
      | some text =>
          if cl ∈ r.readLines then parseLine m line rest r
          else ⟨r.readLines ++ [cl], Function.update r.value cl (some text)⟩
      | none => parseLine m line rest r

/-- `parseConfigBlock`; the fuel counts lines. -/
def parseConfigBlock (m : Matcher) : Nat → Stream → Reading → Reading × Stream
  | 0, s, r => (r, s)
  | fuel + 1, s, r =>
      if s.good then
        let (line, s) := s.getline
        let line := strip line
        if line = [] then parseConfigBlock m fuel s r
        else if line.head? = some '[' then (r, s)
        else if line.head? = some '#' then parseConfigBlock m fuel s r
        else
          let line := line.takeWhile (· ≠ '#')
          parseConfigBlock m fuel s (parseLine m line configOptions r)
      else (r, s)

/-- The variables of `parseConfigFile`. -/
structure FileState where
  readLines : List ConfigOption
  thisReadLines : List ConfigOption
  value : ConfigOption → Option Line
  defaultDone : Bool
  specificDone : Bool

/-- A `[default]` header was found. -/
def FileState.defaultBlock (st : FileState) (parse : Reading → Reading × Stream) :
    FileState × Stream :=
  if st.specificDone then
    let (r, s) := parse ⟨st.readLines, st.value⟩
    ({ st with readLines := r.readLines, value := r.value, defaultDone := true }, s)
  else
    let (r, s) := parse ⟨st.thisReadLines, st.value⟩
    ({ st with thisReadLines := r.readLines, value := r.value, defaultDone := true }, s)

/-- The header of the application's block was found. -/
def FileState.specificBlock (st : FileState) (parse : Reading → Reading × Stream) :
    FileState × Stream :=
  let (r, s) := parse ⟨st.readLines, st.value⟩
  ({ st with readLines := r.readLines, value := r.value, specificDone := true }, s)

/-- The loop of `parseConfigFile`. -/
def parseConfigFileLoop (m : Matcher) : Nat → Stream → FileState → FileState
  | 0, _, st => st
  | fuel + 1, s, st =>
      if s.good && !(st.defaultDone && st.specificDone) then
        let (line, s) := s.getline
        let line := strip line
        if line = [] then parseConfigFileLoop m fuel s st
        else
          let (current, s) := s.tellg
          let parse := parseConfigBlock m (s.rest.length + 1) s
          if matchDefault line then
            let (st, s) := st.defaultBlock parse
            parseConfigFileLoop m fuel (s.seekg current) st
          else if !st.specificDone && matchApp m line then
            let (st, s) := st.specificBlock parse
            parseConfigFileLoop m fuel (s.seekg current) st
          else parseConfigFileLoop m fuel (s.seekg current) st
      else st

/-- `std::unique` without `erase`: what is kept moves to the front, the places behind it
keep what they held. -/
def unique (l : List ConfigOption) : List ConfigOption :=
  let kept := l.destutter (· ≠ ·)
  kept ++ l.drop kept.length

/-- `parseConfigFile`. -/
def parseConfigFile (m : Matcher) (s : Stream) (r : Reading) : Reading :=
  let st := parseConfigFileLoop m (s.rest.length + 1) s
    ⟨r.readLines, r.readLines, r.value, false, false⟩
  ⟨if st.defaultDone then unique (st.readLines ++ st.thisReadLines) else st.readLines, st.value⟩

/-! ### Files -/

inductive BlockKind where
  | default
  | application
  deriving DecidableEq, Repr

/-- The block a stripped line is the header of. -/
def blockKind (m : Matcher) (line : Line) : Option BlockKind :=
  if matchDefault line then some .default
  else if matchApp m line then some .application
  else none

/-- The lines of the block that starts here: up to a line with an opening bracket. -/
def blockLines (lines : List Line) : List Line :=
  lines.takeWhile fun line => (strip line).head? ≠ some '['

/-- The blocks of a file that concern the application, in the order they stand. -/
def blocks (m : Matcher) : List Line → List (BlockKind × List Line)
  | [] => []
  | line :: rest =>
      match blockKind m (strip line) with
      | some kind => (kind, blockLines rest) :: blocks m rest
      | none => blocks m rest

/-- The contents of a file with at most one block of each kind. -/
structure ConfigFile (m : Matcher) where
  lines : List Line
  finalNewline : Bool
  nodup : ((blocks m lines).map Prod.fst).Nodup

/-- A freshly opened file, or one that could not be opened. -/
def openStream {m : Matcher} : Option (ConfigFile m) → Stream
  | some f => ⟨f.lines, f.finalNewline, false, false⟩
  | none => ⟨[], true, false, true⟩

/-- One round of the loop in `readConfig`. -/
def readFile {m : Matcher} (r : Reading) (f : Option (ConfigFile m)) : Reading :=
  if r.readLines.length < configOptions.length then parseConfigFile m (openStream f) r else r

def readFiles {m : Matcher} (r : Reading) (files : List (Option (ConfigFile m))) : Reading :=
  files.foldl readFile r

/-- Nothing read; `none` stands for the built-in value of an option. -/
def Reading.start : Reading := ⟨[], fun _ => none⟩

/-- `readConfig`: the text each option was last set to. -/
def readConfig {m : Matcher} (custom home global : Option (ConfigFile m)) :
    ConfigOption → Option Line :=
  let r := readFiles Reading.start [custom, home, global]
  Function.update r.value .swapfiles ((r.value .swapfiles).map m.substituteHomeDir)

/-! ### What the documentation promises -/

/-- The text a line gives to an option. -/
def accepted (m : Matcher) (line : Line) (cl : ConfigOption) : Option Line :=
  let line := strip line
  if line = [] ∨ line.head? = some '#' then none
  else matchKeyEqualsValue m (line.takeWhile (· ≠ '#')) cl

/-- The first accepted value for an option among some lines. -/
def firstAccepted (m : Matcher) (lines : List Line) (cl : ConfigOption) : Option Line :=
  lines.findSome? fun line => accepted m line cl

/-- The value a file's block of the given kind supplies. -/
def ConfigFile.supplies {m : Matcher} (f : ConfigFile m) (kind : BlockKind) (cl : ConfigOption) :
    Option Line :=
  ((blocks m f.lines).lookup kind).bind fun lines => firstAccepted m lines cl

/-- The value a file supplies, the application's block before the default block. -/
def ConfigFile.gives {m : Matcher} (f : ConfigFile m) (cl : ConfigOption) : Option Line :=
  (f.supplies .application cl).or (f.supplies .default cl)

/-- The first accepted value over the files, in the order given. -/
def firstGiven {m : Matcher} (files : List (Option (ConfigFile m))) (cl : ConfigOption) :
    Option Line :=
  files.findSome? fun f => f.bind fun f => f.gives cl

/-- Every option has the first accepted value in the documented order, or its built-in
one; the home directory is put into `swapfiles`. -/
def Precedence {m : Matcher} (custom home global : Option (ConfigFile m))
    (value : ConfigOption → Option Line) : Prop :=
  ∀ cl, value cl =
    if cl = .swapfiles then (firstGiven [custom, home, global] cl).map m.substituteHomeDir
    else firstGiven [custom, home, global] cl

/-- No readable file is left out while an option is unset. -/
def NoneLeftOut {m : Matcher} : Reading → List (Option (ConfigFile m)) → Prop
  | _, [] => True
  | r, f :: files =>
      (f.isSome → ¬ r.readLines.length < configOptions.length → ∀ cl, cl ∈ r.readLines) ∧
        NoneLeftOut (readFile r f) files

/-! ### The condition -/

/-- The options supplied so far, and how many the vector counts. -/
structure Tally where
  given : ConfigOption → Bool
  recorded : Nat

def Tally.start : Tally := ⟨fun _ => false, 0⟩

/-- The number of options a block supplies that are not in `given`. -/
def newOptions (m : Matcher) (given : ConfigOption → Bool) (lines : List Line) : Nat :=
  (configOptions.filter fun cl => !given cl && (firstAccepted m lines cl).isSome).length

/-- The options given after a block. -/
def alsoGiven (m : Matcher) (given : ConfigOption → Bool) (lines : List Line) :
    ConfigOption → Bool :=
  fun cl => given cl || (firstAccepted m lines cl).isSome

/-- The tally after a file: a default block doubles what was counted before the file, and
one that stands before the application's block counts options of that block again. -/
def Tally.afterFile (t : Tally) {m : Matcher} (f : ConfigFile m) : Tally :=
  match blocks m f.lines with
  | [(.application, a)] => ⟨alsoGiven m t.given a, t.recorded + newOptions m t.given a⟩
  | [(.default, d)] => ⟨alsoGiven m t.given d, t.recorded + (t.recorded + newOptions m t.given d)⟩
  | [(.application, a), (.default, d)] =>
      ⟨alsoGiven m (alsoGiven m t.given a) d,
        t.recorded + newOptions m t.given a + newOptions m (alsoGiven m t.given a) d + t.recorded⟩
  | [(.default, d), (.application, a)] =>
      ⟨alsoGiven m (alsoGiven m t.given a) d,
        t.recorded + newOptions m t.given a + (t.recorded + newOptions m t.given d)⟩
  | _ => t

/-- Whenever the count has reached the number of options before a readable file, all
options have indeed been given. -/
def CountHonest {m : Matcher} : Tally → List (Option (ConfigFile m)) → Prop
  | _, [] => True
  | t, none :: files => CountHonest t files
  | t, some f :: files =>
      (configOptions.length ≤ t.recorded → ∀ cl, t.given cl = true) ∧
        CountHonest (if t.recorded < configOptions.length then t.afterFile f else t) files

/-! ### What a piece of text adds -/

/-- `r'` is `r` with the options that `f` gives a value to and that were not read yet. -/
structure Extends (r r' : Reading) (f : ConfigOption → Option Line) : Prop where
  lines : ∃ new, r'.readLines = r.readLines ++ new ∧ new.Nodup ∧
    ∀ cl, cl ∈ new ↔ cl ∉ r.readLines ∧ (f cl).isSome
  value : ∀ cl, r'.value cl = if cl ∈ r.readLines then r.value cl else (f cl).or (r.value cl)

theorem Extends.refl (r : Reading) : Extends r r fun _ => none :=
  ⟨⟨[], by simp⟩, fun cl => by simp⟩

theorem Extends.congr {r r' : Reading} {f g : ConfigOption → Option Line} (h : Extends r r' f)
    (same : ∀ cl, cl ∉ r.readLines → f cl = g cl) : Extends r r' g := by
  obtain ⟨new, lines, nodup, mem⟩ := h.lines
  refine ⟨⟨new, lines, nodup, fun cl => ?_⟩, fun cl => ?_⟩
  · rw [mem]
    exact and_congr_right fun unread => by rw [same cl unread]
  · rw [h.value]
    split
    · rfl
    · rename_i unread
      rw [same cl unread]

theorem Extends.mem {r r' : Reading} {f : ConfigOption → Option Line} (h : Extends r r' f)
    (cl : ConfigOption) : cl ∈ r'.readLines ↔ cl ∈ r.readLines ∨ (f cl).isSome := by
  obtain ⟨new, lines, _, mem⟩ := h.lines
  rw [lines, List.mem_append, mem]
  tauto

/-- One piece of text after another: the first one has priority. -/
theorem Extends.trans {r r' r'' : Reading} {f g : ConfigOption → Option Line}
    (first : Extends r r' f) (second : Extends r' r'' g) :
    Extends r r'' fun cl => (f cl).or (g cl) := by
  obtain ⟨new, lines, nodup, mem⟩ := first.lines
  obtain ⟨new', lines', nodup', mem'⟩ := second.lines
  refine ⟨⟨new ++ new', by rw [lines', lines, List.append_assoc], ?_, fun cl => ?_⟩, fun cl => ?_⟩
  · refine nodup.append nodup' fun cl here there => ?_
    have := (mem' cl).mp there
    rw [lines, List.mem_append] at this
    exact this.1 (.inr here)
  · rw [List.mem_append, mem, mem', lines, List.mem_append, mem]
    cases f cl <;> simp
  · rw [second.value, first.value]
    by_cases read : cl ∈ r.readLines
    · simp [read, (first.mem cl).mpr (.inl read)]
    · cases given : f cl with
      | none =>
          have unread : cl ∉ r'.readLines := by simp [first.mem, read, given]
          simp [read, unread]
      | some text =>
          have nowRead : cl ∈ r'.readLines := by simp [first.mem, given]
          simp [read, nowRead]

/-! ### Lines and blocks -/

theorem ConfigOption.name_injective : ∀ a b : ConfigOption, a.name = b.name → a = b := by
  intro a b
  cases a <;> cases b <;> decide

/-- A line has the key of at most one option. -/
theorem matchKeyEqualsValue_unique {m : Matcher} {line : Line} {a b : ConfigOption}
    {v w : Line} (one : matchKeyEqualsValue m line a = some v)
    (other : matchKeyEqualsValue m line b = some w) : a = b := by
  unfold matchKeyEqualsValue at one other
  split at one
  · cases one
  · split at one
    · rename_i keyA
      split at other
      · cases other
      · split at other
        · rename_i keyB
          exact ConfigOption.name_injective a b (keyA.symm.trans keyB)
        · cases other
    · cases one

/-- One line sets the option it has the key of, if that one is unread. -/
theorem parseLine_spec (m : Matcher) (line : Line) :
    ∀ (opts : List ConfigOption) (r : Reading), Extends r (parseLine m line opts r)
      fun cl => if cl ∈ opts then matchKeyEqualsValue m line cl else none := by
  intro opts
  induction opts with
  | nil =>
      intro r
      exact (Extends.refl r).congr fun cl _ => by simp
  | cons head opts ih =>
      intro r
      simp only [parseLine]
      split
      · rename_i text matched
        have others : ∀ cl, cl ≠ head → matchKeyEqualsValue m line cl = none := by
          intro cl other
          cases found : matchKeyEqualsValue m line cl with
          | none => rfl
          | some w => exact absurd (matchKeyEqualsValue_unique found matched) other
        split
        · rename_i read
          refine (ih r).congr fun cl unread => ?_
          have other : cl ≠ head := fun same => unread (same ▸ read)
          simp [others cl other]
        · rename_i unread
          refine ⟨⟨[head], rfl, List.nodup_singleton _, fun cl => ?_⟩, fun cl => ?_⟩
          · rw [List.mem_singleton]
            constructor
            · rintro rfl
              exact ⟨unread, by simp [matched]⟩
            · rintro ⟨_, given⟩
              by_contra other
              simp [others cl other] at given
          · by_cases same : cl = head
            · subst same
              simp [unread, matched]
            · simp [Function.update_of_ne same, others cl same]
      · rename_i unmatched
        refine (ih r).congr fun cl _ => ?_
        by_cases same : cl = head
        · subst same
          simp [unmatched]
        · simp [same]

theorem mem_configOptions (cl : ConfigOption) : cl ∈ configOptions := by
  cases cl <;> decide

theorem nodup_configOptions : configOptions.Nodup := by
  decide

/-- A stream that is not good has nothing left. -/
def Stream.Sound (s : Stream) : Prop := s.good = false → s.rest = []

theorem getline_nil {s : Stream} (ended : s.rest = []) :
    s.getline = ([], { s with eof := true, fail := true }) := by
  obtain ⟨rest, newline, eof, fail⟩ := s
  cases ended
  rfl

theorem getline_cons {s : Stream} {line : Line} {rest : List Line} (good : s.good = true)
    (left : s.rest = line :: rest) :
    ∃ s', s.getline = (line, s') ∧ s'.rest = rest ∧ s'.Sound ∧ s'.fail = false := by
  have sane : s.fail = false := by
    simp only [Stream.good, Bool.and_eq_true, Bool.not_eq_true'] at good
    exact good.2
  obtain ⟨lines, newline, eof, fail⟩ := s
  cases left
  cases rest with
  | nil => exact ⟨_, rfl, rfl, fun _ => rfl, sane⟩
  | cons next rest =>
      refine ⟨_, rfl, rfl, fun bad => ?_, sane⟩
      cases (show true = false from good.symm.trans bad)

theorem firstAccepted_cons (m : Matcher) (line : Line) (lines : List Line) (cl : ConfigOption) :
    firstAccepted m (line :: lines) cl = (accepted m line cl).or (firstAccepted m lines cl) := by
  unfold firstAccepted
  rw [List.findSome?_cons]
  cases accepted m line cl <;> rfl

theorem firstAccepted_cons_none {m : Matcher} {line : Line} (lines : List Line)
    (ignored : ∀ cl, accepted m line cl = none) (cl : ConfigOption) :
    firstAccepted m (line :: lines) cl = firstAccepted m lines cl := by
  rw [firstAccepted_cons, ignored, Option.none_or]

/-- `parseConfigBlock` reads the lines of the block; when it runs into the end of the
file, no line with an opening bracket was left. -/
theorem parseConfigBlock_spec (m : Matcher) :
    ∀ (fuel : Nat) (s : Stream) (r : Reading), s.Sound → s.rest.length < fuel →
      Extends r (parseConfigBlock m fuel s r).1 (firstAccepted m (blockLines s.rest)) ∧
        ((parseConfigBlock m fuel s r).2.fail = true →
          ∀ line ∈ s.rest, (strip line).head? ≠ some '[') := by
  intro fuel
  induction fuel with
  | zero => intro s r _ enough; cases enough
  | succ fuel ih =>
      intro s r sound enough
      simp only [parseConfigBlock]
      split
      · rename_i good
        cases left : s.rest with
        | nil =>
            rw [getline_nil left]
            have stops : ∀ s' : Stream, s'.good = false →
                parseConfigBlock m fuel s' r = (r, s') := by
              intro s' bad
              cases fuel with
              | zero => rfl
              | succ fuel => simp [parseConfigBlock, bad]
            simp only [strip, List.dropWhile_nil, List.reverse_nil, if_true]
            rw [stops _ (by simp [Stream.good])]
            exact ⟨Extends.refl r, fun _ line mem => absurd mem List.not_mem_nil⟩
        | cons line rest =>
            obtain ⟨s', gets, left', sound', sane⟩ := getline_cons good left
            rw [gets]
            have more : s'.rest.length < fuel := by
              rw [left']
              rw [left] at enough
              exact Nat.lt_of_succ_lt_succ enough
            have skip : (strip line).head? ≠ some '[' →
                blockLines (line :: rest) = line :: blockLines rest :=
              fun other => List.takeWhile_cons_of_pos (by simpa using other)
            have later : ∀ r', (parseConfigBlock m fuel s' r').2.fail = true →
                (strip line).head? ≠ some '[' →
                ∀ l ∈ line :: rest, (strip l).head? ≠ some '[' := by
              intro r' failed other l mem
              rcases List.mem_cons.mp mem with rfl | mem
              · exact other
              · exact (ih s' r' sound' more).2 failed l (left' ▸ mem)
            simp only
            split
            · rename_i empty
              have other : (strip line).head? ≠ some '[' := by simp [empty]
              refine ⟨?_, fun failed => later r failed other⟩
              rw [skip other]
              refine (left' ▸ (ih s' r sound' more).1).congr fun cl _ => ?_
              exact (firstAccepted_cons_none _ (fun cl => by simp [accepted, empty]) cl).symm
            · rename_i notEmpty
              split
              · rename_i bracket
                have nothing : blockLines (line :: rest) = [] :=
                  List.takeWhile_cons_of_neg (by simp [bracket])
                rw [nothing]
                refine ⟨Extends.refl r, fun failed => ?_⟩
                rw [sane] at failed
                cases failed
              · rename_i other
                split
                · rename_i comment
                  refine ⟨?_, fun failed => later r failed other⟩
                  rw [skip other]
                  refine (left' ▸ (ih s' r sound' more).1).congr fun cl _ => ?_
                  exact (firstAccepted_cons_none _ (fun cl => by simp [accepted, comment]) cl).symm
                · rename_i text
                  refine ⟨?_, fun failed => later _ failed other⟩
                  rw [skip other]
                  have here := parseLine_spec m ((strip line).takeWhile (· ≠ '#')) configOptions r
                  have rest' := (ih s' (parseLine m ((strip line).takeWhile (· ≠ '#'))
                    configOptions r) sound' more).1
                  rw [left'] at rest'
                  refine (here.trans rest').congr fun cl _ => ?_
                  rw [firstAccepted_cons, if_pos (mem_configOptions cl)]
                  simp [accepted, notEmpty, text]
      · rename_i bad
        have ended := sound (by simpa using bad)
        rw [ended]
        exact ⟨Extends.refl r, fun _ line mem => absurd mem List.not_mem_nil⟩

/-! ### The blocks of a file -/

/-- The file state after a default block was parsed to `r`. -/
def FileState.withDefault (st : FileState) (r : Reading) : FileState :=
  if st.specificDone then
    { st with readLines := r.readLines, value := r.value, defaultDone := true }
  else { st with thisReadLines := r.readLines, value := r.value, defaultDone := true }

def FileState.withSpecific (st : FileState) (r : Reading) : FileState :=
  { st with readLines := r.readLines, value := r.value, specificDone := true }

/-- The state `st'` comes out of `st` by parsing the blocks in their order. -/
def Parses (m : Matcher) : List (BlockKind × List Line) → FileState → FileState → Prop
  | [], st, st' => st' = st
  | (.default, lines) :: bs, st, st' =>
      ∃ r, Extends ⟨if st.specificDone then st.readLines else st.thisReadLines, st.value⟩ r
        (firstAccepted m lines) ∧ Parses m bs (st.withDefault r) st'
  | (.application, lines) :: bs, st, st' =>
      ∃ r, Extends ⟨st.readLines, st.value⟩ r (firstAccepted m lines) ∧
        Parses m bs (st.withSpecific r) st'

/-- No block header is left among lines without an opening bracket. -/
theorem blocks_of_no_bracket {m : Matcher} {lines : List Line}
    (none : ∀ line ∈ lines, (strip line).head? ≠ some '[') : blocks m lines = [] := by
  induction lines with
  | nil => rfl
  | cons line lines ih =>
      have other := none line (List.mem_cons_self ..)
      have notHeader : blockKind m (strip line) = Option.none := by
        unfold blockKind
        cases stripped : strip line with
        | nil => rfl
        | cons c rest =>
            have notBracket : c ≠ '[' := by simpa [stripped] using other
            have notDefault : matchDefault (c :: rest) = false := by
              simp [matchDefault, notBracket]
            have notApp : matchApp m (c :: rest) = false := by
              unfold matchApp
              split
              · rename_i same
                exact absurd (List.cons.inj same).1 notBracket
              · rfl
            simp [notDefault, notApp]
      rw [blocks, notHeader]
      exact ih fun l mem => none l (List.mem_cons_of_mem _ mem)

theorem parseConfigFileLoop_not_good {m : Matcher} (fuel : Nat) {s : Stream} (st : FileState)
    (bad : s.good = false) : parseConfigFileLoop m fuel s st = st := by
  cases fuel with
  | zero => rfl
  | succ fuel => simp [parseConfigFileLoop, bad]

theorem tellg_spec {s : Stream} (sound : s.Sound) :
    s.tellg.1 = s.rest ∧ s.tellg.2.rest = s.rest ∧ s.tellg.2.Sound ∧
      (s.tellg.2.fail = true → s.fail = true ∨ s.rest = []) := by
  unfold Stream.tellg
  split
  · exact ⟨rfl, rfl, sound, .inl⟩
  · rename_i bad
    have ended := sound (by simpa using bad)
    exact ⟨rfl, rfl, fun _ => ended, fun _ => .inr ended⟩

/-- The kinds of block the loop is still looking for are the only ones left. -/
def FileState.Awaits (st : FileState) (bs : List (BlockKind × List Line)) : Prop :=
  (bs.map Prod.fst).Nodup ∧ (st.defaultDone = true → .default ∉ bs.map Prod.fst) ∧
    (st.specificDone = true → .application ∉ bs.map Prod.fst)

theorem FileState.Awaits.withDefault {st : FileState} {lines : List Line}
    {bs : List (BlockKind × List Line)} (h : st.Awaits ((.default, lines) :: bs)) (r : Reading) :
    (st.withDefault r).Awaits bs := by
  have nodup := List.nodup_cons.mp h.1
  refine ⟨nodup.2, fun _ => nodup.1, fun done => ?_⟩
  have done' : st.specificDone = true := by
    unfold FileState.withDefault at done
    split at done <;> exact done
  exact fun mem => h.2.2 done' (List.mem_cons_of_mem _ mem)

theorem FileState.Awaits.withSpecific {st : FileState} {lines : List Line}
    {bs : List (BlockKind × List Line)} (h : st.Awaits ((.application, lines) :: bs))
    (r : Reading) :
    (st.withSpecific r).Awaits bs := by
  have nodup := List.nodup_cons.mp h.1
  exact ⟨nodup.2, fun done mem => h.2.1 done (List.mem_cons_of_mem _ mem), fun _ => nodup.1⟩

theorem defaultBlock_eq (st : FileState) (parse : Reading → Reading × Stream) :
    st.defaultBlock parse =
      (st.withDefault
          (parse ⟨if st.specificDone then st.readLines else st.thisReadLines, st.value⟩).1,
        (parse ⟨if st.specificDone then st.readLines else st.thisReadLines, st.value⟩).2) := by
  unfold FileState.defaultBlock FileState.withDefault
  cases st.specificDone <;> rfl

theorem blocks_cons_some {m : Matcher} {line : Line} {rest : List Line} {kind : BlockKind}
    (header : blockKind m (strip line) = some kind) :
    blocks m (line :: rest) = (kind, blockLines rest) :: blocks m rest := by
  rw [blocks, header]

theorem blocks_cons_none {m : Matcher} {line : Line} {rest : List Line}
    (plain : blockKind m (strip line) = none) : blocks m (line :: rest) = blocks m rest := by
  rw [blocks, plain]

/-- The loop of `parseConfigFile` parses the blocks of the file in their order. -/
theorem parseConfigFileLoop_spec (m : Matcher) :
    ∀ (fuel : Nat) (s : Stream) (st : FileState), s.Sound → s.rest.length < fuel →
      st.Awaits (blocks m s.rest) →
      Parses m (blocks m s.rest) st (parseConfigFileLoop m fuel s st) := by
  intro fuel
  induction fuel with
  | zero => intro s st _ enough; cases enough
  | succ fuel ih =>
      intro s st sound enough awaits
      simp only [parseConfigFileLoop]
      split
      · rename_i goes
        simp only [Bool.and_eq_true] at goes
        obtain ⟨good, notDone⟩ := goes
        cases left : s.rest with
        | nil =>
            rw [getline_nil left]
            simp only [strip, List.dropWhile_nil, List.reverse_nil, if_true]
            rw [parseConfigFileLoop_not_good fuel st (by simp [Stream.good])]
            rfl
        | cons line rest =>
            obtain ⟨s', gets, left', sound', sane⟩ := getline_cons good left
            rw [gets]
            have more : rest.length < fuel := by
              rw [left] at enough
              exact Nat.lt_of_succ_lt_succ enough
            rw [left] at awaits
            have tells := tellg_spec sound'
            -- After `seekg` the loop goes on behind the header or stops at the end of the file.
            have goesOn : ∀ (s'' : Stream) (st' : FileState), st'.Awaits (blocks m rest) →
                (s''.fail = true → ∀ l ∈ rest, (strip l).head? ≠ some '[') →
                Parses m (blocks m rest) st' (parseConfigFileLoop m fuel (s''.seekg rest) st') := by
              intro s'' st' waits stopped
              unfold Stream.seekg
              split
              · rename_i failed
                rw [parseConfigFileLoop_not_good fuel st' (by simp [Stream.good, failed]),
                  blocks_of_no_bracket (stopped failed)]
                rfl
              · rename_i going
                refine ih { s'' with rest := rest, eof := false } st' (fun bad => ?_) more waits
                exact absurd (by simpa [Stream.good] using bad) going
            simp only
            split
            · rename_i empty
              rw [blocks_cons_none (by rw [empty]; rfl)] at awaits ⊢
              exact left' ▸ ih s' st sound' (left' ▸ more) (left' ▸ awaits)
            · rename_i notEmpty
              rcases tell : s'.tellg with ⟨current, s2⟩
              rw [tell, left'] at tells
              obtain ⟨rfl, told, soundT, failT⟩ := tells
              have parsed : ∀ r, Extends r (parseConfigBlock m (s2.rest.length + 1) s2 r).1
                  (firstAccepted m (blockLines current)) ∧
                    ((parseConfigBlock m (s2.rest.length + 1) s2 r).2.fail = true →
                      ∀ l ∈ current, (strip l).head? ≠ some '[') := by
                intro r
                have spec := parseConfigBlock_spec m (s2.rest.length + 1) s2 r soundT
                  (Nat.lt_succ_self _)
                generalize parseConfigBlock m (s2.rest.length + 1) s2 r = out at spec ⊢
                rwa [show s2.rest = current from told] at spec
              simp only
              split
              · rename_i isDefault
                have kind : blockKind m (strip line) = some .default := by
                  simp [blockKind, isDefault]
                rw [blocks_cons_some kind] at awaits ⊢
                rw [defaultBlock_eq]
                exact ⟨_, (parsed _).1, goesOn (parseConfigBlock m (s2.rest.length + 1) s2 _).2 _
                  (awaits.withDefault _) (parsed _).2⟩
              · rename_i notDefault
                split
                · rename_i isApp
                  simp only [Bool.and_eq_true] at isApp
                  have kind : blockKind m (strip line) = some .application := by
                    simp [blockKind, notDefault, isApp.2]
                  rw [blocks_cons_some kind] at awaits ⊢
                  exact ⟨_, (parsed _).1, goesOn (parseConfigBlock m (s2.rest.length + 1) s2 _).2 _
                    (awaits.withSpecific _) (parsed _).2⟩
                · rename_i notApp
                  have kind : blockKind m (strip line) = none := by
                    cases app : matchApp m (strip line) with
                    | false => simp [blockKind, notDefault, app]
                    | true =>
                        have kind : blockKind m (strip line) = some .application := by
                          simp [blockKind, notDefault, app]
                        have done : st.specificDone = true := by simpa [app] using notApp
                        rw [blocks_cons_some kind] at awaits
                        exact absurd (List.mem_cons_self ..) (awaits.2.2 done)
                  rw [blocks_cons_none kind] at awaits ⊢
                  refine goesOn s2 st awaits fun failed l mem => ?_
                  rcases failT failed with failed | ended
                  · rw [sane] at failed
                    cases failed
                  · rw [ended] at mem
                    cases mem
      · rename_i stops
        have ended : blocks m s.rest = [] := by
          cases good : s.good with
          | false => rw [sound good, blocks]
          | true =>
              have done : st.defaultDone = true ∧ st.specificDone = true := by
                simpa [good] using stops
              refine List.eq_nil_iff_forall_not_mem.mpr fun ⟨kind, lines⟩ mem => ?_
              have here := List.mem_map_of_mem (f := Prod.fst) mem
              cases kind with
              | default => exact awaits.2.1 done.1 here
              | application => exact awaits.2.2 done.2 here
        rw [ended]
        rfl

/-! ### One file -/

theorem mem_destutter'_ne (l : List ConfigOption) :
    ∀ a cl, cl ∈ l.destutter' (· ≠ ·) a ↔ cl ∈ a :: l := by
  induction l with
  | nil => intro a cl; simp
  | cons b l ih =>
      intro a cl
      rw [List.destutter'_cons]
      split
      · rw [List.mem_cons, ih, List.mem_cons, List.mem_cons, List.mem_cons]
      · rename_i same
        rw [ih, not_not.mp same]
        simp

/-- `unique` keeps the options of the vector, and its length. -/
theorem mem_unique (l : List ConfigOption) (cl : ConfigOption) : cl ∈ unique l ↔ cl ∈ l := by
  have kept : cl ∈ l.destutter (· ≠ ·) ↔ cl ∈ l := by
    cases l with
    | nil => simp
    | cons a l => rw [List.destutter_cons', mem_destutter'_ne]
  unfold unique
  rw [List.mem_append, kept]
  exact ⟨fun mem => mem.elim id List.mem_of_mem_drop, .inl⟩

theorem length_unique (l : List ConfigOption) : (unique l).length = l.length := by
  have shorter := (List.destutter_sublist (· ≠ ·) l).length_le
  simp only [unique, List.length_append, List.length_drop]
  omega

theorem mem_unique_append (l l' : List ConfigOption) (cl : ConfigOption) :
    cl ∈ unique (l ++ l') ↔ cl ∈ l ∨ cl ∈ l' := by
  rw [mem_unique, List.mem_append]

theorem length_unique_append (l l' : List ConfigOption) :
    (unique (l ++ l')).length = l.length + l'.length := by
  rw [length_unique, List.length_append]

/-- The tally describes the vector of options read so far. -/
def Tallies (t : Tally) (r : Reading) : Prop :=
  (∀ cl, t.given cl = true ↔ cl ∈ r.readLines) ∧ t.recorded = r.readLines.length

/-- A block adds to the vector the options that it supplies and that were unread. -/
theorem Extends.tally {m : Matcher} {r r' : Reading} {lines : List Line}
    (h : Extends r r' (firstAccepted m lines)) {given : ConfigOption → Bool}
    (same : ∀ cl, given cl = true ↔ cl ∈ r.readLines) :
    r'.readLines.length = r.readLines.length + newOptions m given lines ∧
      ∀ cl, alsoGiven m given lines cl = true ↔ cl ∈ r'.readLines := by
  constructor
  · obtain ⟨new, adds, nodup, mem⟩ := h.lines
    have counts : new.Perm (configOptions.filter fun cl =>
        !given cl && (firstAccepted m lines cl).isSome) := by
      refine (List.perm_ext_iff_of_nodup nodup (nodup_configOptions.filter _)).mpr fun cl => ?_
      rw [mem, List.mem_filter, ← same]
      simp [mem_configOptions]
    rw [adds, List.length_append, counts.length_eq, newOptions]
  · intro cl
    rw [h.mem, ← same]
    simp [alsoGiven]

/-- A file has at most two blocks, in either order. -/
theorem blocks_forms {bs : List (BlockKind × List Line)} (nodup : (bs.map Prod.fst).Nodup) :
    bs = [] ∨ (∃ a, bs = [(.application, a)]) ∨ (∃ d, bs = [(.default, d)]) ∨
      (∃ a d, bs = [(.application, a), (.default, d)]) ∨
      ∃ a d, bs = [(.default, d), (.application, a)] := by
  match bs, nodup with
  | [], _ => exact .inl rfl
  | [(.application, a)], _ => exact .inr (.inl ⟨a, rfl⟩)
  | [(.default, d)], _ => exact .inr (.inr (.inl ⟨d, rfl⟩))
  | [(.application, a), (.default, d)], _ => exact .inr (.inr (.inr (.inl ⟨a, d, rfl⟩)))
  | [(.default, d), (.application, a)], _ => exact .inr (.inr (.inr (.inr ⟨a, d, rfl⟩)))
  | [(.application, _), (.application, _)], nodup => simp at nodup
  | [(.default, _), (.default, _)], nodup => simp at nodup
  | (k₁, _) :: (k₂, _) :: (k₃, _) :: _, nodup =>
      cases k₁ <;> cases k₂ <;> cases k₃ <;> simp at nodup

/-- What a file does to the reading: the options it gives and that were unread are set,
the application's block first, and the vector grows as the tally says. -/
structure Reads {m : Matcher} (f : ConfigFile m) (r r' : Reading) : Prop where
  mem : ∀ cl, cl ∈ r'.readLines ↔ cl ∈ r.readLines ∨ (f.gives cl).isSome
  value : ∀ cl, r'.value cl = if cl ∈ r.readLines then r.value cl else (f.gives cl).or (r.value cl)
  tally : ∀ t, Tallies t r → Tallies (t.afterFile f) r'

theorem awaits_start {bs : List (BlockKind × List Line)} (nodup : (bs.map Prod.fst).Nodup)
    (r : Reading) : FileState.Awaits ⟨r.readLines, r.readLines, r.value, false, false⟩ bs := by
  refine ⟨nodup, fun no => ?_, fun no => ?_⟩ <;> cases no

theorem parseConfigFile_spec {m : Matcher} (f : ConfigFile m) (r : Reading) :
    Reads f r (parseConfigFile m (openStream (some f)) r) := by
  have parses := parseConfigFileLoop_spec m (f.lines.length + 1) (openStream (some f))
    ⟨r.readLines, r.readLines, r.value, false, false⟩ (fun bad => by cases bad)
    (Nat.lt_succ_self _) (awaits_start f.nodup r)
  unfold parseConfigFile
  simp only [show (openStream (some f)).rest = f.lines from rfl] at parses ⊢
  generalize parseConfigFileLoop m (f.lines.length + 1) (openStream (some f))
    ⟨r.readLines, r.readLines, r.value, false, false⟩ = st at parses ⊢
  rcases blocks_forms f.nodup with bs | ⟨a, bs⟩ | ⟨d, bs⟩ | ⟨a, d, bs⟩ | ⟨a, d, bs⟩
  · have gives : ∀ cl, f.gives cl = none := fun cl => by
      simp [ConfigFile.gives, ConfigFile.supplies, bs]
    rw [bs] at parses
    rw [show st = _ from parses]
    refine ⟨fun cl => by simp [gives], fun cl => by simp [gives], fun t tallies => ?_⟩
    simpa [Tally.afterFile, bs] using tallies
  · have gives : ∀ cl, f.gives cl = firstAccepted m a cl := fun cl => by
      rw [ConfigFile.gives, ConfigFile.supplies, ConfigFile.supplies, bs]
      exact Option.or_none
    rw [bs] at parses
    obtain ⟨ra, addsA, rfl⟩ := parses
    refine ⟨fun cl => ?_, fun cl => ?_, fun t tallies => ?_⟩
    · rw [gives]
      exact addsA.mem cl
    · rw [gives]
      exact addsA.value cl
    · obtain ⟨count, given⟩ := addsA.tally tallies.1
      simp only [Tally.afterFile, bs]
      exact ⟨given, by rw [tallies.2]; exact count.symm⟩
  · have gives : ∀ cl, f.gives cl = firstAccepted m d cl := fun cl => by
      rw [ConfigFile.gives, ConfigFile.supplies, ConfigFile.supplies, bs]
      exact Option.none_or
    rw [bs] at parses
    obtain ⟨rd, addsD, rfl⟩ := parses
    have addsD : Extends r rd (firstAccepted m d) := addsD
    refine ⟨fun cl => ?_, fun cl => ?_, fun t tallies => ?_⟩
    · rw [gives]
      apply (mem_unique_append r.readLines rd.readLines cl).trans
      rw [addsD.mem]
      tauto
    · rw [gives]
      exact addsD.value cl
    · obtain ⟨count, given⟩ := addsD.tally tallies.1
      simp only [Tally.afterFile, bs]
      constructor
      · intro cl
        apply Iff.trans _ (mem_unique_append r.readLines rd.readLines cl).symm
        rw [given, addsD.mem]
        tauto
      · apply Eq.trans _ (length_unique_append r.readLines rd.readLines).symm
        rw [count, tallies.2]
  · have gives : ∀ cl, f.gives cl = (firstAccepted m a cl).or (firstAccepted m d cl) := fun cl => by
      rw [ConfigFile.gives, ConfigFile.supplies, ConfigFile.supplies, bs]
      rfl
    rw [bs] at parses
    obtain ⟨ra, addsA, rd, addsD, rfl⟩ := parses
    have addsA : Extends r ra (firstAccepted m a) := addsA
    have addsD : Extends ra rd (firstAccepted m d) := addsD
    have both := addsA.trans addsD
    refine ⟨fun cl => ?_, fun cl => ?_, fun t tallies => ?_⟩
    · rw [gives]
      apply (mem_unique_append rd.readLines r.readLines cl).trans
      rw [both.mem]
      tauto
    · rw [gives]
      exact both.value cl
    · obtain ⟨countA, givenA⟩ := addsA.tally tallies.1
      obtain ⟨countD, givenD⟩ := addsD.tally givenA
      simp only [Tally.afterFile, bs]
      constructor
      · intro cl
        apply Iff.trans _ (mem_unique_append rd.readLines r.readLines cl).symm
        rw [givenD, both.mem]
        tauto
      · apply Eq.trans _ (length_unique_append rd.readLines r.readLines).symm
        rw [countD, countA, tallies.2]
  · have gives : ∀ cl, f.gives cl = (firstAccepted m a cl).or (firstAccepted m d cl) := fun cl => by
      rw [ConfigFile.gives, ConfigFile.supplies, ConfigFile.supplies, bs]
      rfl
    rw [bs] at parses
    obtain ⟨rd, addsD, ra, addsA, rfl⟩ := parses
    have addsD : Extends r rd (firstAccepted m d) := addsD
    have addsA : Extends ⟨r.readLines, rd.value⟩ ra (firstAccepted m a) := addsA
    refine ⟨fun cl => ?_, fun cl => ?_, fun t tallies => ?_⟩
    · rw [gives]
      apply (mem_unique_append ra.readLines rd.readLines cl).trans
      rw [addsA.mem, addsD.mem]
      simp only [Option.isSome_or, Bool.or_eq_true]
      tauto
    · rw [gives]
      apply (addsA.value cl).trans
      rw [addsD.value]
      split
      · rfl
      · rw [Option.or_assoc]
    · obtain ⟨countD, givenD⟩ := addsD.tally tallies.1
      obtain ⟨countA, givenA⟩ := addsA.tally tallies.1
      simp only [Tally.afterFile, bs]
      constructor
      · intro cl
        apply Iff.trans _ (mem_unique_append ra.readLines rd.readLines cl).symm
        rw [← givenD, ← givenA]
        simp only [alsoGiven, Bool.or_eq_true]
        tauto
      · apply Eq.trans _ (length_unique_append ra.readLines rd.readLines).symm
        rw [countD, countA, tallies.2]

/-! ### All files -/

theorem parseConfigFile_closed {m : Matcher} (r : Reading) :
    parseConfigFile m (openStream (none : Option (ConfigFile m))) r = r := rfl

/-- The loop of `readConfig`, from any reading: the count is honest exactly when no file
is left out while an option is unset, and then every option gets the first value given. -/
theorem readFiles_spec {m : Matcher} (files : List (Option (ConfigFile m))) :
    ∀ (r : Reading) (t : Tally), Tallies t r →
      (CountHonest t files ↔ NoneLeftOut r files) ∧
        (CountHonest t files → ∀ cl, (readFiles r files).value cl =
          if cl ∈ r.readLines then r.value cl else (firstGiven files cl).or (r.value cl)) := by
  induction files with
  | nil =>
      intro r t _
      refine ⟨Iff.rfl, fun _ cl => ?_⟩
      simp [readFiles, firstGiven]
  | cons f files ih =>
      intro r t tallies
      cases f with
      | none =>
          have same : readFile r (none : Option (ConfigFile m)) = r := by
            unfold readFile
            split
            · exact parseConfigFile_closed r
            · rfl
          obtain ⟨agrees, right⟩ := ih r t tallies
          constructor
          · simp only [CountHonest, NoneLeftOut, same, agrees]
            simp
          · intro honest cl
            have := right honest cl
            simpa [readFiles, same, firstGiven] using this
      | some f =>
          by_cases short : r.readLines.length < configOptions.length
          · have parsed : readFile r (some f) = parseConfigFile m (openStream (some f)) r :=
              if_pos short
            have reads := parseConfigFile_spec f r
            obtain ⟨agrees, right⟩ := ih _ _ (reads.tally t tallies)
            have shortT : t.recorded < configOptions.length := tallies.2 ▸ short
            constructor
            · simp only [CountHonest, NoneLeftOut, parsed, if_pos shortT, agrees]
              simp [short, Nat.not_le.mpr shortT]
            · intro honest cl
              have later : CountHonest (t.afterFile f) files := by
                have := honest.2
                rwa [if_pos shortT] at this
              have := right later cl
              rw [readFiles, List.foldl_cons, parsed]
              apply this.trans
              rw [reads.value, firstGiven, firstGiven, List.findSome?_cons]
              by_cases read : cl ∈ r.readLines
              · simp [read, (reads.mem cl).mpr (.inl read)]
              · cases given : f.gives cl with
                | none =>
                    have unread : cl ∉ (parseConfigFile m (openStream (some f)) r).readLines := by
                      simp [reads.mem, read, given]
                    simp [read, unread, given]
                | some text =>
                    have nowRead : cl ∈ (parseConfigFile m (openStream (some f)) r).readLines := by
                      simp [reads.mem, given]
                    simp [read, nowRead, given]
          · have skipped : readFile r (some f) = r := if_neg short
            obtain ⟨agrees, right⟩ := ih r t tallies
            have longT : ¬ t.recorded < configOptions.length := tallies.2 ▸ short
            constructor
            · simp only [CountHonest, NoneLeftOut, skipped, if_neg longT, agrees, tallies.1]
              simp [short, Nat.not_lt.mp longT]
            · intro honest cl
              have all : cl ∈ r.readLines := (tallies.1 cl).mp (honest.1 (Nat.not_lt.mp longT) cl)
              have later : CountHonest t files := by
                have := honest.2
                rwa [if_neg longT] at this
              have := right later cl
              rw [readFiles, List.foldl_cons, skipped]
              apply this.trans
              simp [all]

/-- Reading the three files respects the documented precedence and leaves no readable
file out while an option is unset exactly when the count of options read reaches the
number of options, before a readable file, only if all options have been given. -/
theorem precedence_iff {m : Matcher} (custom home global : Option (ConfigFile m)) :
    (Precedence custom home global (readConfig custom home global) ∧
        NoneLeftOut Reading.start [custom, home, global]) ↔
      CountHonest Tally.start [custom, home, global] := by
  have tallies : Tallies Tally.start Reading.start :=
    ⟨fun cl => by simp [Tally.start, Reading.start], rfl⟩
  obtain ⟨agrees, right⟩ := readFiles_spec [custom, home, global] Reading.start Tally.start tallies
  refine ⟨fun both => agrees.mpr both.2, fun honest => ⟨fun cl => ?_, agrees.mp honest⟩⟩
  have value : ∀ cl, (readFiles Reading.start [custom, home, global]).value cl =
      firstGiven [custom, home, global] cl := by
    intro cl
    simpa [Reading.start] using right honest cl
  unfold readConfig
  by_cases same : cl = .swapfiles
  · subst same
    simp [value]
  · simp [same, value]

/-! ### The file that is left out -/

/-- Values without blanks, for an application that has no block. -/
def plainMatcher : Matcher where
  value := fun _ text => if strip text = [] then none else some (strip text)
  appName := fun _ => false
  substituteHomeDir := id

/-- A custom file that sets four options by default. -/
def fourDefaults : ConfigFile plainMatcher where
  lines := ["[default]".toList, "memoryManager = cyclicManagedMemory".toList,
    "swap = managedFileSwap".toList, "memory = 10".toList, "swapMemory = 20".toList]
  finalNewline := true
  nodup := by decide

/-- A home file whose default block is empty. -/
def emptyDefault : ConfigFile plainMatcher where
  lines := ["[default]".toList]
  finalNewline := true
  nodup := by decide

/-- A global file that sets the policy. -/
def globalPolicy : ConfigFile plainMatcher where
  lines := ["[default]".toList, "policy = fixed".toList]
  finalNewline := true
  nodup := by decide

/-- The home file doubles the count of four options, so the global file is not read. -/
theorem global_left_out :
    ¬ (Precedence (some fourDefaults) (some emptyDefault) (some globalPolicy)
        (readConfig (some fourDefaults) (some emptyDefault) (some globalPolicy)) ∧
      NoneLeftOut Reading.start [some fourDefaults, some emptyDefault, some globalPolicy]) := by
  rintro ⟨precedence, _⟩
  have builtIn : readConfig (some fourDefaults) (some emptyDefault) (some globalPolicy) .policy =
      none := by decide
  have supplied : firstGiven [some fourDefaults, some emptyDefault, some globalPolicy] .policy =
      some "fixed".toList := by decide
  have := precedence .policy
  rw [builtIn, if_neg (by decide), supplied] at this
  cases this

end Rambrain.ConfigReader
