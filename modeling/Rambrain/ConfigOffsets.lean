import Rambrain.ConfigReader

/-!
Positions in a configuration file.

`parseConfigFile` goes back behind a header with `seekg`, to a position that it keeps in an
`unsigned int`. `FileStream` counts characters, so this position can be a wrong one. As long as the
positions that are needed are below `2 ^ 32` the stream behaves like the `Stream` of
`Rambrain.ConfigReader` (`FileStream.view`), the loop comes to an end, and the blocks have their
precedence in whatever order they stand (`block_precedence`).
-/

namespace Rambrain.ConfigReader

/-! ### Streams of characters -/

/-- The lines of a text; a newline ends the one before it. -/
def linesOf : List Char → List Line
  | [] => []
  | c :: rest =>
      if c = '\n' then [] :: linesOf rest
      else
        match linesOf rest with
        | [] => [[c]]
        | line :: lines => (c :: line) :: lines

def endsWithNewline (text : List Char) : Bool := text.getLast? = some '\n'

/-- An `ifstream`: what the file holds, the position in it and the state flags. -/
structure FileStream where
  text : List Char
  pos : Nat
  eof : Bool
  fail : Bool

namespace FileStream

def good (s : FileStream) : Bool := !s.eof && !s.fail

/-- What is left of the file. -/
def left (s : FileStream) : List Char := s.text.drop s.pos

def getline (s : FileStream) : Line × FileStream :=
  let line := s.left.takeWhile (· ≠ '\n')
  if s.left = [] then ([], { s with eof := true, fail := true })
  else if line.length < s.left.length then (line, { s with pos := s.pos + line.length + 1 })
  else (line, { s with pos := s.pos + line.length, eof := true })

/-- `unsigned int current = stream.tellg()`; at the end of the file `tellg` fails with -1. -/
def tellg (s : FileStream) : Nat × FileStream :=
  if s.good then (s.pos % 2 ^ 32, s) else (2 ^ 32 - 1, { s with fail := true })

def seekg (s : FileStream) (current : Nat) : FileStream :=
  if s.fail then { s with eof := false } else { s with pos := current, eof := false }

/-- `parseConfigBlock`; `none` when the fuel is used up. -/
def parseConfigBlock (m : Matcher) : Nat → FileStream → Reading → Option (Reading × FileStream)
  | 0, _, _ => none
  | fuel + 1, s, r =>
      if s.good then
        let (line, s) := s.getline
        let line := strip line
        if line = [] then parseConfigBlock m fuel s r
        else if line.head? = some '[' then some (r, s)
        else if line.head? = some '#' then parseConfigBlock m fuel s r
        else
          let line := line.takeWhile (· ≠ '#')
          parseConfigBlock m fuel s (parseLine m line configOptions r)
      else some (r, s)

/-- The loop of `parseConfigFile`; `none` when the fuel is used up. -/
def parseConfigFileLoop (m : Matcher) : Nat → FileStream → FileState → Option FileState
  | 0, _, _ => none
  | fuel + 1, s, st =>
      if s.good && !(st.defaultDone && st.specificDone) then
        let (line, s) := s.getline
        let line := strip line
        if line = [] then parseConfigFileLoop m fuel s st
        else
          let (current, s) := s.tellg
          if matchDefault line then
            -- `specificDone ? readLines : thisReadLines`
            (s.parseConfigBlock m fuel
              ⟨if st.specificDone then st.readLines else st.thisReadLines, st.value⟩).bind
                fun out => parseConfigFileLoop m fuel (out.2.seekg current) (st.withDefault out.1)
          else if !st.specificDone && matchApp m line then
            (s.parseConfigBlock m fuel ⟨st.readLines, st.value⟩).bind
              fun out => parseConfigFileLoop m fuel (out.2.seekg current) (st.withSpecific out.1)
          else parseConfigFileLoop m fuel (s.seekg current) st
      else some st

/-- `parseConfigFile` -/
def parseConfigFile (m : Matcher) (fuel : Nat) (s : FileStream) (r : Reading) : Option Reading :=
  (parseConfigFileLoop m fuel s ⟨r.readLines, r.readLines, r.value, false, false⟩).map fun st =>
    ⟨if st.defaultDone then unique (st.readLines ++ st.thisReadLines) else st.readLines, st.value⟩

/-- The file freshly opened. -/
def openFile (text : List Char) : FileStream := ⟨text, 0, false, false⟩

/-- The stream of lines. -/
def view (s : FileStream) : Stream := ⟨linesOf s.left, endsWithNewline s.text, s.eof, s.fail⟩

end FileStream

/-- The positions that the loop goes back to are below `2 ^ 32`: every line that is not blank and
up to which not both headers stand ends below, unless nothing goes back to it, because it ends the
file without a newline or is a header whose block fails at the end of the file. -/
def SeeksHeld (m : Matcher) (newline : Bool) : Nat → Bool → Bool → List Line → Prop
  | _, _, _, [] => True
  | pos, defaultDone, specificDone, line :: rest =>
      let header := matchDefault (strip line) || (!specificDone && matchApp m (strip line))
      let defaultDone := defaultDone || blockKind m (strip line) = some .default
      let specificDone := specificDone || blockKind m (strip line) = some .application
      (defaultDone && specificDone) = true ∨
        (header = true ∧ newline = true ∧ ∀ l ∈ rest, (strip l).head? ≠ some '[') ∨
        ((strip line = [] ∨ (rest = [] ∧ newline = false) ∨ pos + line.length + 1 < 2 ^ 32) ∧
          SeeksHeld m newline (pos + line.length + 1) defaultDone specificDone rest)

/-- The file `text` is read without a wrong position. -/
def Held (m : Matcher) (text : List Char) : Prop :=
  SeeksHeld m (endsWithNewline text) 0 false false (linesOf text)

/-! ### The view -/

theorem linesOf_cons_newline (rest : List Char) : linesOf ('\n' :: rest) = [] :: linesOf rest := by
  rw [linesOf, if_pos rfl]

theorem linesOf_eq {text : List Char} (nonempty : text ≠ []) :
    linesOf text = text.takeWhile (· ≠ '\n') ::
      linesOf (text.drop ((text.takeWhile (· ≠ '\n')).length + 1)) := by
  induction text with
  | nil => exact absurd rfl nonempty
  | cons c rest ih =>
      by_cases newline : c = '\n'
      · subst newline
        rw [linesOf_cons_newline, List.takeWhile_cons_of_neg (by simp)]
        rfl
      · rw [List.takeWhile_cons_of_pos (by simpa using newline), List.length_cons,
          List.drop_succ_cons, linesOf, if_neg newline]
        cases rest with
        | nil => rfl
        | cons d rest =>
            rw [ih (List.cons_ne_nil d rest)]

theorem takeWhile_line {line : Line} (inside : '\n' ∉ line) (rest : List Char) :
    (line ++ '\n' :: rest).takeWhile (· ≠ '\n') = line := by
  rw [List.takeWhile_append_of_pos, List.takeWhile_cons_of_neg (by simp), List.append_nil]
  intro c mem
  apply decide_eq_true
  rintro rfl
  exact inside mem

theorem linesOf_append {line : Line} (inside : '\n' ∉ line) (rest : List Char) :
    linesOf (line ++ '\n' :: rest) = line :: linesOf rest := by
  rw [linesOf_eq (by simp), takeWhile_line inside, ← List.drop_drop, List.drop_left]
  rfl

theorem linesOf_eq_nil {text : List Char} (empty : linesOf text = []) : text = [] := by
  by_contra nonempty
  rw [linesOf_eq nonempty] at empty
  cases empty

theorem getline_last (line : Line) (newline eof fail : Bool) :
    Stream.getline ⟨[line], newline, eof, fail⟩ = (line, ⟨[], newline, !newline, fail⟩) := rfl

theorem getline_more (line next : Line) (rest : List Line) (newline eof fail : Bool) :
    Stream.getline ⟨line :: next :: rest, newline, eof, fail⟩ =
      (line, ⟨next :: rest, newline, eof, fail⟩) := rfl

theorem parseConfigBlock_not_good {m : Matcher} (fuel : Nat) {s : Stream} (r : Reading)
    (bad : s.good = false) : parseConfigBlock m fuel s r = (r, s) := by
  cases fuel with
  | zero => rfl
  | succ fuel => simp [parseConfigBlock, bad]

/-- A block that runs to the end of a file with a newline at its end fails there. -/
theorem parseConfigBlock_fails (m : Matcher) :
    ∀ (fuel : Nat) (s : Stream) (r : Reading), s.good = true → s.finalNewline = true →
      s.rest.length < fuel → (∀ line ∈ s.rest, (strip line).head? ≠ some '[') →
        (parseConfigBlock m fuel s r).2.fail = true := by
  intro fuel
  induction fuel with
  | zero => intro s r _ _ enough; cases enough
  | succ fuel ih =>
      intro s r good newline enough never
      simp only [parseConfigBlock, good, if_true]
      cases left : s.rest with
      | nil =>
          have stopped : Stream.good { s with eof := true, fail := true } = false := by
            simp [Stream.good]
          rw [getline_nil left]
          simp only [strip, List.dropWhile_nil, List.reverse_nil, if_true]
          rw [parseConfigBlock_not_good fuel r stopped]
      | cons line rest =>
          have gets : s.getline = (line, { s with rest := rest }) := by
            obtain ⟨lines, newline', eof, fail⟩ := s
            cases left
            cases newline
            cases rest with
            | nil =>
                cases eof with
                | true => cases good
                | false => rfl
            | cons next rest => rfl
          have later : ∀ r, (parseConfigBlock m fuel { s with rest := rest } r).2.fail = true := by
            intro r
            apply ih { s with rest := rest } r good newline
            · rw [left] at enough
              exact Nat.lt_of_succ_lt_succ enough
            · intro l mem
              exact never l (left ▸ List.mem_cons_of_mem line mem)
          have other := never line (left ▸ List.mem_cons_self)
          rw [gets]
          simp only [other, if_false]
          split
          · exact later r
          · split
            · exact later r
            · exact later _

theorem withDefault_defaultDone (st : FileState) (r : Reading) :
    (st.withDefault r).defaultDone = true := by
  unfold FileState.withDefault
  split <;> rfl

theorem withDefault_specificDone (st : FileState) (r : Reading) :
    (st.withDefault r).specificDone = st.specificDone := by
  unfold FileState.withDefault
  split <;> rfl

theorem tellg_failed {s : Stream} (bad : s.good = false) :
    s.tellg.2.fail = true ∧ s.tellg.2.good = false := by
  rw [Stream.tellg, if_neg (by simp [bad])]
  simp [Stream.good]

theorem parseConfigFileLoop_both {m : Matcher} (fuel : Nat) (s : Stream) {st : FileState}
    (done : (st.defaultDone && st.specificDone) = true) :
    parseConfigFileLoop m fuel s st = st := by
  cases fuel with
  | zero => rfl
  | succ fuel => simp [parseConfigFileLoop, done]

namespace FileStream

variable {s : FileStream}

theorem view_rest_eq_nil (ended : s.left = []) : s.view.rest = [] := by
  rw [view, ended]
  rfl

theorem endsWithNewline_left (nonempty : s.left ≠ []) :
    endsWithNewline s.left = endsWithNewline s.text := by
  have before : ¬ s.text.length ≤ s.pos := fun behind => nonempty (List.drop_eq_nil_of_le behind)
  rw [endsWithNewline, endsWithNewline, left, List.getLast?_drop, if_neg before]

/-- The last line of a file ends with a newline, and nothing stands behind it. -/
theorem endsWithNewline_of_last {text : List Char}
    (more : (text.takeWhile (· ≠ '\n')).length < text.length)
    (last : text.drop ((text.takeWhile (· ≠ '\n')).length + 1) = []) :
    endsWithNewline text = true := by
  have parts := @List.takeWhile_append_dropWhile _ (fun c => decide (c ≠ '\n')) text
  have short := List.drop_eq_nil_iff.mp last
  cases behind : text.dropWhile fun c => decide (c ≠ '\n') with
  | nil =>
      rw [behind, List.append_nil] at parts
      rw [parts] at more
      exact absurd more (Nat.lt_irrefl _)
  | cons c rest =>
      have newline : c = '\n' := by
        have first := List.head?_dropWhile_not (fun c => decide (c ≠ '\n')) text
        rw [behind] at first
        simpa using first
      have empty : rest = [] := by
        have lengths := congrArg List.length parts
        rw [behind, List.length_append, List.length_cons] at lengths
        apply List.eq_nil_of_length_eq_zero
        omega
      rw [← parts, behind, newline, empty]
      simp [endsWithNewline]

theorem endsWithNewline_of_open {text : List Char} (nonempty : text ≠ [])
    (all : text.takeWhile (· ≠ '\n') = text) : endsWithNewline text = false := by
  have last : text.getLast? ≠ some '\n' := by
    rw [List.getLast?_eq_some_getLast nonempty]
    intro newline
    have mem := List.getLast_mem nonempty
    rw [Option.some.inj newline, ← all] at mem
    simpa using List.mem_takeWhile_imp mem
  simpa [endsWithNewline] using last

/-- `getline` reads a line of the view. -/
theorem getline_view (good : s.good = true) :
    s.view.getline = (s.getline.1, s.getline.2.view) ∧ s.getline.2.text = s.text := by
  have sane : s.eof = false ∧ s.fail = false := by
    simpa [FileStream.good] using good
  by_cases ended : s.left = []
  · rw [getline_nil (view_rest_eq_nil ended), getline, if_pos ended]
    exact ⟨rfl, rfl⟩
  · have lines := linesOf_eq ended
    have newline := endsWithNewline_left ended
    have isPrefix : s.left.takeWhile (· ≠ '\n') <+: s.left := List.takeWhile_prefix _
    obtain ⟨line, isLine⟩ : ∃ line, line = s.left.takeWhile (· ≠ '\n') := ⟨_, rfl⟩
    rw [← isLine] at lines isPrefix
    rw [getline, if_neg ended, ← isLine]
    by_cases more : line.length < s.left.length
    · rw [if_pos more]
      have behind : FileStream.view { s with pos := s.pos + line.length + 1 } =
          ⟨linesOf (s.left.drop (line.length + 1)), endsWithNewline s.text, s.eof, s.fail⟩ := by
        rw [left, List.drop_drop, ← Nat.add_assoc]
        rfl
      refine ⟨?_, rfl⟩
      rw [behind, view, lines]
      cases rest : linesOf (s.left.drop (line.length + 1)) with
      | nil =>
          have last : endsWithNewline s.left = true := by
            rw [isLine] at more rest
            exact endsWithNewline_of_last more (linesOf_eq_nil rest)
          rw [getline_last, ← newline, last, sane.1]
          rfl
      | cons next rest' => rw [getline_more]
    · rw [if_neg more]
      have all : line = s.left :=
        isPrefix.eq_of_length (Nat.le_antisymm isPrefix.length_le (Nat.not_lt.mp more))
      have last := endsWithNewline_of_open ended (isLine.symm.trans all)
      have behind : FileStream.view { s with pos := s.pos + line.length, eof := true } =
          ⟨[], endsWithNewline s.text, true, s.fail⟩ := by
        have empty : s.text.drop (s.pos + line.length) = [] := by
          rw [← List.drop_drop, all, ← left, List.drop_length]
        rw [view, left, empty]
        rfl
      rw [all, List.drop_eq_nil_of_le (Nat.le_succ _), linesOf, ← all] at lines
      refine ⟨?_, rfl⟩
      rw [behind, view, ← all, lines, getline_last, ← newline, last]
      rfl

/-- Either nothing is left and the stream fails, or the first line of the view is read. -/
theorem getline_cases (good : s.good = true) :
    (s.left = [] ∧ s.getline.1 = [] ∧ s.getline.2.good = false) ∨
      ∃ line rest, s.view.rest = line :: rest ∧ s.getline.1 = line ∧
        s.getline.2.view.rest = rest ∧ s.getline.2.view.Sound ∧ s.getline.2.fail = false := by
  by_cases ended : s.left = []
  · left
    refine ⟨ended, ?_, ?_⟩
    · rw [getline, if_pos ended]
    · rw [getline, if_pos ended]
      simp [FileStream.good]
  · right
    obtain ⟨line, rest, lines⟩ : ∃ line rest, s.view.rest = line :: rest :=
      ⟨_, _, linesOf_eq ended⟩
    obtain ⟨s', gets, isRest, sound, sane⟩ := getline_cons (s := s.view) good lines
    rw [(getline_view good).1] at gets
    obtain ⟨isLine, rfl⟩ := Prod.mk.inj gets
    exact ⟨line, rest, lines, isLine, isRest, sound, sane⟩

theorem getline_pos (good : s.getline.2.good = true) :
    s.getline.2.pos = s.pos + s.getline.1.length + 1 := by
  by_cases ended : s.left = []
  · rw [getline, if_pos ended] at good
    simp [FileStream.good] at good
  · rw [getline, if_neg ended] at good ⊢
    by_cases more : (s.left.takeWhile (· ≠ '\n')).length < s.left.length
    · rw [if_pos more]
    · rw [if_neg more] at good
      simp [FileStream.good] at good

/-- Behind the last line of a file without a newline at its end the stream is not good. -/
theorem getline_open (good : s.good = true) {line : Line} (last : s.view.rest = [line])
    (unended : endsWithNewline s.text = false) : s.getline.2.good = false := by
  have gets := (getline_view good).1
  have isView : s.view = ⟨[line], false, s.eof, s.fail⟩ := by
    rw [← last, ← unended]
    rfl
  rw [isView, getline_last] at gets
  have ended : s.getline.2.eof = true := congrArg Stream.eof (Prod.mk.inj gets).2.symm
  rw [FileStream.good, ended]
  rfl

theorem tellg_view (s : FileStream) :
    s.tellg.2.view = s.view.tellg.2 ∧ s.view.tellg.1 = s.view.rest ∧ s.tellg.2.text = s.text := by
  obtain ⟨text, pos, eof, fail⟩ := s
  cases eof with
  | true => exact ⟨rfl, rfl, rfl⟩
  | false => cases fail <;> exact ⟨rfl, rfl, rfl⟩

/-- Going back to a position that the integer holds is going back in the view. -/
theorem seekg_view {s s' : FileStream} (same : s'.text = s.text) :
    (s'.seekg s.pos).view = s'.view.seekg s.view.rest := by
  obtain ⟨text, pos, eof, fail⟩ := s'
  cases same
  cases fail with
  | true => rfl
  | false => rfl

/-! ### The parser -/

theorem parseConfigBlock_not_good {m : Matcher} {fuel : Nat} (pos : 0 < fuel)
    (bad : s.good = false) (r : Reading) : s.parseConfigBlock m fuel r = some (r, s) := by
  obtain ⟨fuel, rfl⟩ := Nat.exists_eq_succ_of_ne_zero pos.ne'
  rw [parseConfigBlock, if_neg (by simp [bad])]

/-- `parseConfigBlock` never goes back, so it comes to an end and reads the lines of the view. -/
theorem parseConfigBlock_view (m : Matcher) :
    ∀ (k fuel : Nat) (s : FileStream) (r : Reading), s.view.rest.length < k → k < fuel →
      ∃ s', s.parseConfigBlock m fuel r =
          some ((ConfigReader.parseConfigBlock m k s.view r).1, s') ∧
        s'.view = (ConfigReader.parseConfigBlock m k s.view r).2 ∧ s'.text = s.text := by
  intro k
  induction k with
  | zero => intro fuel s r enough; cases enough
  | succ k ih =>
      intro fuel s r enough le
      obtain ⟨fuel, rfl⟩ := Nat.exists_eq_succ_of_ne_zero (Nat.ne_zero_of_lt le)
      simp only [parseConfigBlock, ConfigReader.parseConfigBlock]
      cases isGood : s.good with
      | false =>
          have bad : s.view.good = false := isGood
          rw [bad]
          exact ⟨s, rfl, rfl, rfl⟩
      | true =>
          have good : s.view.good = true := isGood
          obtain ⟨viewed, same⟩ := getline_view isGood
          rw [good, if_pos rfl, if_pos rfl, viewed]
          -- the next lines, or what is left when the file has ended
          have later : ∀ r, ∃ s', s.getline.2.parseConfigBlock m fuel r =
              some ((ConfigReader.parseConfigBlock m k s.getline.2.view r).1, s') ∧
                s'.view = (ConfigReader.parseConfigBlock m k s.getline.2.view r).2 ∧
                  s'.text = s.text := by
            intro r
            rcases getline_cases isGood with ⟨_, _, bad⟩ | ⟨line, rest, lines, _, isRest, _, _⟩
            · have bad' : s.getline.2.view.good = false := bad
              rw [parseConfigBlock_not_good (by omega) bad,
                ConfigReader.parseConfigBlock_not_good k r bad']
              exact ⟨s.getline.2, rfl, rfl, same⟩
            · have more : s.getline.2.view.rest.length < k := by
                rw [isRest]
                rw [lines] at enough
                exact Nat.lt_of_succ_lt_succ enough
              obtain ⟨s', parsed, isView, isText⟩ := ih fuel s.getline.2 r more (by omega)
              exact ⟨s', parsed, isView, isText.trans same⟩
          simp only
          split
          · exact later r
          · split
            · exact ⟨s.getline.2, rfl, rfl, same⟩
            · split
              · exact later r
              · exact later _

theorem parseConfigFileLoop_done {m : Matcher} {fuel : Nat} (pos : 0 < fuel) {st : FileState}
    (done : s.good = false ∨ (st.defaultDone && st.specificDone) = true) :
    s.parseConfigFileLoop m fuel st = some st := by
  obtain ⟨fuel, rfl⟩ := Nat.exists_eq_succ_of_ne_zero pos.ne'
  rw [parseConfigFileLoop, if_neg]
  rcases done with bad | done
  · simp [bad]
  · simp [done]

/-- The loop goes on where the one of the view does. -/
theorem goesOn {m : Matcher} {k fuel : Nat} {s s' : FileStream} {st : FileState}
    (ih : ∀ (fuel : Nat) (s : FileStream), s.view.rest.length < k → k < fuel →
      SeeksHeld m (endsWithNewline s.text) s.pos st.defaultDone st.specificDone s.view.rest →
      s.parseConfigFileLoop m fuel st = some (ConfigReader.parseConfigFileLoop m k s.view st))
    (enough : s.view.rest.length < k) (le : k < fuel) (same : s'.text = s.text)
    (fails : s.good = false → s'.fail = true)
    (held : s'.fail = false → (st.defaultDone && st.specificDone) = true ∨
      ((s.good = true → s.pos < 2 ^ 32) ∧ SeeksHeld m (endsWithNewline s.text) s.pos
        st.defaultDone st.specificDone s.view.rest)) :
    (s'.seekg s.tellg.1).parseConfigFileLoop m fuel st =
      some (ConfigReader.parseConfigFileLoop m k (s'.view.seekg s.view.rest) st) := by
  cases failed : s'.fail with
  | true =>
      have stopped : ∀ current, (s'.seekg current).good = false := fun current => by
        rw [seekg, if_pos failed]
        simp [FileStream.good, failed]
      have viewed : (s'.view.seekg s.view.rest).good = false := by
        have failed' : s'.view.fail = true := failed
        rw [Stream.seekg, if_pos failed']
        simp [Stream.good, failed']
      rw [parseConfigFileLoop_done (by omega) (.inl (stopped _)),
        parseConfigFileLoop_not_good k st viewed]
  | false =>
      rcases held failed with done | ⟨below, held⟩
      · rw [parseConfigFileLoop_done (by omega) (.inr done), parseConfigFileLoop_both k _ done]
      · have good : s.good = true := by
          by_contra bad
          have failed' := fails (Bool.eq_false_of_not_eq_true bad)
          rw [failed] at failed'
          cases failed'
        have goes : s'.seekg s.pos = { s' with pos := s.pos, eof := false } := by
          rw [seekg, if_neg (by simp [failed])]
        have rest : (s'.seekg s.pos).view.rest = s.view.rest := by
          rw [goes, view, view, left, left, same]
        have position : s.tellg.1 = s.pos := by
          rw [tellg, if_pos good]
          exact Nat.mod_eq_of_lt (below good)
        rw [position, ← seekg_view same]
        apply ih fuel (s'.seekg s.pos) (by rwa [rest]) le
        rw [rest, goes, same]
        exact held

/-- A block is read from behind its header, and the loop goes back there. -/
theorem goesOn_block {m : Matcher} {k fuel : Nat} {s : FileStream}
    (ih : ∀ (fuel : Nat) (s : FileStream) (st : FileState), s.view.rest.length < k → k < fuel →
      SeeksHeld m (endsWithNewline s.text) s.pos st.defaultDone st.specificDone s.view.rest →
      s.parseConfigFileLoop m fuel st = some (ConfigReader.parseConfigFileLoop m k s.view st))
    (sound : s.view.Sound) (enough : s.view.rest.length < k) (le : k < fuel) (r : Reading)
    (st : Reading → FileState)
    (held : ∀ r, ((st r).defaultDone && (st r).specificDone) = true ∨
      (endsWithNewline s.text = true ∧ ∀ l ∈ s.view.rest, (strip l).head? ≠ some '[') ∨
      ((s.good = true → s.pos < 2 ^ 32) ∧ SeeksHeld m (endsWithNewline s.text) s.pos
        (st r).defaultDone (st r).specificDone s.view.rest)) :
    ((s.tellg.2.parseConfigBlock m fuel r).bind fun out =>
        parseConfigFileLoop m fuel (out.2.seekg s.tellg.1) (st out.1)) =
      some (ConfigReader.parseConfigFileLoop m k
        ((ConfigReader.parseConfigBlock m (s.view.tellg.2.rest.length + 1) s.view.tellg.2 r).2.seekg
          s.view.tellg.1)
        (st (ConfigReader.parseConfigBlock m (s.view.tellg.2.rest.length + 1)
          s.view.tellg.2 r).1)) := by
  obtain ⟨tellView, tellRest, tellText⟩ := tellg_view s
  have length : s.view.tellg.2.rest = s.view.rest := (tellg_spec sound).2.1
  obtain ⟨s', parsed, isView, isText⟩ := parseConfigBlock_view m
    (s.view.tellg.2.rest.length + 1) fuel s.tellg.2 r
    (by rw [tellView]; exact Nat.lt_succ_self _) (by rw [length]; omega)
  rw [tellView] at parsed isView
  have isFail : s'.fail = _ := congrArg Stream.fail isView
  rw [parsed, Option.bind_some, ← isView, tellRest]
  apply goesOn (fun fuel s => ih fuel s _) enough le (isText.trans tellText)
  · intro bad
    have bad' : s.view.good = false := bad
    obtain ⟨failed, stopped⟩ := tellg_failed bad'
    rw [ConfigReader.parseConfigBlock_not_good _ _ stopped] at isFail
    exact isFail.trans failed
  · intro sane
    rcases held (ConfigReader.parseConfigBlock m (s.view.tellg.2.rest.length + 1)
      s.view.tellg.2 r).1 with done | ⟨newline, never⟩ | held
    · exact .inl done
    · -- the block fails at the end of the file, also when `tellg` has failed before
      cases isGood : s.view.good with
      | false =>
          obtain ⟨failed, stopped⟩ := tellg_failed isGood
          rw [ConfigReader.parseConfigBlock_not_good _ _ stopped, failed, sane] at isFail
          cases isFail
      | true =>
          have stays : s.view.tellg.2 = s.view := by
            rw [Stream.tellg, if_pos isGood]
          rw [stays, parseConfigBlock_fails m _ _ r isGood newline (Nat.lt_succ_self _) never,
            sane] at isFail
          cases isFail
    · exact .inr held

/-- What is held behind a line. -/
theorem held_next {m : Matcher} {defaultDone specificDone : Bool} {line : Line} {rest : List Line}
    (good : s.good = true) (lines : s.view.rest = line :: rest) (isLine : s.getline.1 = line)
    (isRest : s.getline.2.view.rest = rest) (sound : s.getline.2.view.Sound)
    (held : SeeksHeld m (endsWithNewline s.text) s.pos defaultDone specificDone (line :: rest)) :
    let header := matchDefault (strip line) || (!specificDone && matchApp m (strip line))
    let defaultDone := defaultDone || decide (blockKind m (strip line) = some .default)
    let specificDone := specificDone || decide (blockKind m (strip line) = some .application)
    (defaultDone && specificDone) = true ∨
      (header = true ∧ endsWithNewline s.text = true ∧
        ∀ l ∈ rest, (strip l).head? ≠ some '[') ∨
      ((strip line ≠ [] → s.getline.2.good = true → s.getline.2.pos < 2 ^ 32) ∧
        SeeksHeld m (endsWithNewline s.getline.2.text) s.getline.2.pos defaultDone specificDone
          rest) := by
  intro header defaultDone' specificDone'
  refine held.imp_right (Or.imp_right fun ⟨below, held⟩ => ⟨fun nonempty good' => ?_, ?_⟩)
  · rw [getline_pos good', isLine]
    rcases below with blank | ⟨last, unended⟩ | below
    · exact absurd blank nonempty
    · rw [last] at lines
      rw [getline_open good lines unended] at good'
      cases good'
    · exact below
  · cases good' : s.getline.2.good with
    | true =>
        rw [(getline_view good).2, getline_pos good', isLine]
        exact held
    | false =>
        rw [← isRest, sound good']
        trivial

theorem blockKind_default {m : Matcher} {line : Line} (isDefault : matchDefault line = true) :
    blockKind m line = some .default := if_pos isDefault

theorem blockKind_application {m : Matcher} {line : Line} (notDefault : ¬ matchDefault line = true)
    (isApp : matchApp m line = true) : blockKind m line = some .application := by
  rw [blockKind, if_neg notDefault, if_pos isApp]

/-- A line that is no header leaves what has been found as it was. -/
theorem found_of_plain {m : Matcher} {line : Line} (defaultDone : Bool) {specificDone : Bool}
    (plain : (matchDefault line || (!specificDone && matchApp m line)) = false) :
    (defaultDone || decide (blockKind m line = some .default)) = defaultDone ∧
      (specificDone || decide (blockKind m line = some .application)) = specificDone := by
  simp only [Bool.or_eq_false_iff, Bool.and_eq_false_iff, Bool.not_eq_false'] at plain
  obtain ⟨notDefault, either⟩ := plain
  constructor
  · simp [blockKind, notDefault]
  · rcases either with done | notApp
    · rw [done, Bool.true_or]
    · simp [blockKind, notDefault, notApp]

/-- As long as the positions are held, the loop comes to an end and does what the one of the view
does. -/
theorem parseConfigFileLoop_view (m : Matcher) :
    ∀ (k fuel : Nat) (s : FileStream) (st : FileState), s.view.rest.length < k → k < fuel →
      SeeksHeld m (endsWithNewline s.text) s.pos st.defaultDone st.specificDone s.view.rest →
      s.parseConfigFileLoop m fuel st = some (ConfigReader.parseConfigFileLoop m k s.view st) := by
  intro k
  induction k with
  | zero => intro fuel s st enough; cases enough
  | succ k ih =>
      intro fuel s st enough le held
      obtain ⟨fuel, rfl⟩ := Nat.exists_eq_succ_of_ne_zero (Nat.ne_zero_of_lt le)
      cases goes : s.good && !(st.defaultDone && st.specificDone) with
      | false =>
          have viewed : (s.view.good && !(st.defaultDone && st.specificDone)) = false := goes
          simp only [parseConfigFileLoop, ConfigReader.parseConfigFileLoop, goes, viewed]
          rfl
      | true =>
          have viewed : (s.view.good && !(st.defaultDone && st.specificDone)) = true := goes
          have isGood : s.good = true := by
            rw [Bool.and_eq_true] at goes
            exact goes.1
          obtain ⟨gets, same⟩ := getline_view isGood
          simp only [parseConfigFileLoop, ConfigReader.parseConfigFileLoop, goes, viewed, if_true,
            gets]
          rcases getline_cases isGood with ⟨_, empty, bad⟩ |
            ⟨line, rest, lines, isLine, isRest, sound, _⟩
          · have blank : strip s.getline.1 = [] := by
              rw [empty]
              rfl
            have bad' : s.getline.2.view.good = false := bad
            rw [if_pos blank, if_pos blank, parseConfigFileLoop_done (by omega) (.inl bad),
              parseConfigFileLoop_not_good k st bad']
          · rw [lines] at held enough
            rw [isLine]
            have more : s.getline.2.view.rest.length < k := by
              rw [isRest]
              exact Nat.lt_of_succ_lt_succ enough
            have onward := held_next isGood lines isLine isRest sound held
            rw [← isRest] at onward
            obtain ⟨tellView, tellRest, tellText⟩ := tellg_view s.getline.2
            have behind : ∀ st' : FileState,
                st'.defaultDone =
                  (st.defaultDone || decide (blockKind m (strip line) = some .default)) →
                st'.specificDone =
                  (st.specificDone || decide (blockKind m (strip line) = some .application)) →
                strip line ≠ [] →
                (st'.defaultDone && st'.specificDone) = true ∨
                  (endsWithNewline s.getline.2.text = true ∧
                    ∀ l ∈ s.getline.2.view.rest, (strip l).head? ≠ some '[') ∨
                  ((s.getline.2.good = true → s.getline.2.pos < 2 ^ 32) ∧
                    SeeksHeld m (endsWithNewline s.getline.2.text) s.getline.2.pos
                      st'.defaultDone st'.specificDone s.getline.2.view.rest) := by
              intro st' isDefault isSpecific nonempty
              rw [isDefault, isSpecific]
              rcases onward with done | ⟨_, newline, never⟩ | ⟨below, held⟩
              · exact .inl done
              · exact .inr (.inl ⟨same ▸ newline, never⟩)
              · exact .inr (.inr ⟨below nonempty, held⟩)
            have plain : (matchDefault (strip line) ||
                (!st.specificDone && matchApp m (strip line))) = false →
                (st.defaultDone && st.specificDone) = true ∨
                  ((strip line ≠ [] → s.getline.2.good = true → s.getline.2.pos < 2 ^ 32) ∧
                    SeeksHeld m (endsWithNewline s.getline.2.text) s.getline.2.pos
                      st.defaultDone st.specificDone s.getline.2.view.rest) := by
              intro notHeader
              obtain ⟨known, known'⟩ := found_of_plain st.defaultDone notHeader
              rw [known, known', notHeader] at onward
              exact onward.imp_right fun either => either.resolve_left fun failing =>
                Bool.false_ne_true failing.1
            split
            · next blank =>
                have notDone : ¬ (st.defaultDone && st.specificDone) = true := by
                  rw [Bool.and_eq_true, Bool.not_eq_true'] at goes
                  rw [goes.2]
                  exact Bool.false_ne_true
                apply ih fuel s.getline.2 st more (by omega)
                apply ((plain _).resolve_left notDone).2
                rw [blank]
                simp [matchDefault, matchApp]
            · next nonempty =>
                split
                · next isDefault =>
                    rw [defaultBlock_eq]
                    apply goesOn_block ih sound more (by omega) _ st.withDefault
                    intro r
                    apply behind (st.withDefault r) _ _ nonempty
                    · rw [withDefault_defaultDone]
                      simp [blockKind_default isDefault]
                    · rw [withDefault_specificDone]
                      simp [blockKind_default isDefault]
                · next notDefault =>
                    split
                    · next isApp =>
                        rw [Bool.and_eq_true] at isApp
                        have kind := blockKind_application notDefault isApp.2
                        apply goesOn_block ih sound more (by omega) _ st.withSpecific
                        intro r
                        apply behind (st.withSpecific r) _ _ nonempty
                        · simp [kind, FileState.withSpecific]
                        · simp [kind, FileState.withSpecific]
                    · next notApp =>
                        rw [← tellView, tellRest]
                        apply goesOn (fun fuel s => ih fuel s _) more (by omega) tellText
                        · intro bad
                          have bad' : s.getline.2.view.good = false := bad
                          have isView := congrArg Stream.fail tellView
                          exact isView.trans (tellg_failed bad').1
                        · intro _
                          have notHeader : (matchDefault (strip line) ||
                              (!st.specificDone && matchApp m (strip line))) = false := by
                            rw [Bool.or_eq_false_iff]
                            exact ⟨Bool.eq_false_of_not_eq_true notDefault,
                              Bool.eq_false_of_not_eq_true notApp⟩
                          exact (plain notHeader).imp_right
                            (And.imp_left fun below => below nonempty)

/-- A line that ends at a multiple of `2 ^ 32` is read again and again. -/
theorem parseConfigFileLoop_wraps {m : Matcher} {line : Line} {rest : List Char}
    (inside : '\n' ∉ line) (nonempty : strip line ≠ []) (plain : blockKind m (strip line) = none)
    (wraps : (line.length + 1) % 2 ^ 32 = 0) {st : FileState}
    (notDone : (st.defaultDone && st.specificDone) = false) (fuel : Nat) :
    (openFile (line ++ '\n' :: rest)).parseConfigFileLoop m fuel st = none := by
  induction fuel with
  | zero => rfl
  | succ fuel ih =>
      have notDefault : ¬ matchDefault (strip line) = true := by
        intro isDefault
        simp [blockKind, isDefault] at plain
      have notApp : ¬ (!st.specificDone && matchApp m (strip line)) = true := by
        intro isApp
        rw [Bool.and_eq_true] at isApp
        simp [blockKind, notDefault, isApp.2] at plain
      have gets : (openFile (line ++ '\n' :: rest)).getline =
          (line, ⟨line ++ '\n' :: rest, line.length + 1, false, false⟩) := by
        have isLeft : (openFile (line ++ '\n' :: rest)).left = line ++ '\n' :: rest := rfl
        rw [getline, isLeft, takeWhile_line inside, if_neg (by simp), if_pos (by simp)]
        simp [openFile]
      have goes : ((openFile (line ++ '\n' :: rest)).good &&
          !(st.defaultDone && st.specificDone)) = true := by
        rw [notDone]
        rfl
      rw [parseConfigFileLoop, if_pos goes, gets]
      simp only
      rw [if_neg nonempty, if_neg notDefault, if_neg notApp]
      have back : FileStream.seekg (FileStream.tellg
          ⟨line ++ '\n' :: rest, line.length + 1, false, false⟩).2
            (FileStream.tellg ⟨line ++ '\n' :: rest, line.length + 1, false, false⟩).1 =
          openFile (line ++ '\n' :: rest) := by
        have good : (FileStream.mk (line ++ '\n' :: rest) (line.length + 1) false false).good =
            true := rfl
        rw [tellg, if_pos good, seekg, if_neg (by simp), wraps]
        rfl
      rw [back]
      exact ih

end FileStream

/-! ### One file -/

/-- With enough fuel `parseConfigFile` makes `r'` of `r`. -/
def Ends (m : Matcher) (text : List Char) (r r' : Reading) : Prop :=
  ∃ bound, ∀ fuel, bound ≤ fuel → (FileStream.openFile text).parseConfigFile m fuel r = some r'

/-- The first accepted value for an option in a block of the file. -/
def blockValue (m : Matcher) (text : List Char) (kind : BlockKind) (cl : ConfigOption) :
    Option Line :=
  ((blocks m (linesOf text)).lookup kind).bind fun lines => firstAccepted m lines cl

theorem Ends.unique {m : Matcher} {text : List Char} {r r₁ r₂ : Reading} (one : Ends m text r r₁)
    (two : Ends m text r r₂) : r₁ = r₂ := by
  obtain ⟨bound₁, one⟩ := one
  obtain ⟨bound₂, two⟩ := two
  have same := (one (max bound₁ bound₂) (Nat.le_max_left _ _)).symm.trans
    (two (max bound₁ bound₂) (Nat.le_max_right _ _))
  exact Option.some.inj same

theorem ends_of_held {m : Matcher} {text : List Char} (held : Held m text) (r : Reading) :
    Ends m text r (parseConfigFile m (FileStream.openFile text).view r) := by
  refine ⟨(linesOf text).length + 2, fun fuel le => ?_⟩
  have loop := FileStream.parseConfigFileLoop_view m ((linesOf text).length + 1) fuel
    (FileStream.openFile text) ⟨r.readLines, r.readLines, r.value, false, false⟩
    (Nat.lt_succ_self _) le held
  rw [FileStream.parseConfigFile, loop]
  rfl

theorem lookup_perm {bs bs' : List (BlockKind × List Line)} (perm : bs.Perm bs')
    (nodup : (bs.map Prod.fst).Nodup) (kind : BlockKind) : bs.lookup kind = bs'.lookup kind := by
  induction perm with
  | nil => rfl
  | cons b _ ih =>
      obtain ⟨k, lines⟩ := b
      rw [List.lookup_cons, List.lookup_cons, ih (List.nodup_cons.mp nodup).2]
  | swap b c bs =>
      obtain ⟨k, lines⟩ := b
      obtain ⟨k', lines'⟩ := c
      have either : (kind == k) = false ∨ (kind == k') = false := by
        have differ : k' ≠ k := by
          rintro rfl
          simp at nodup
        by_cases first : kind = k
        · right
          rw [first]
          exact beq_false_of_ne (Ne.symm differ)
        · exact .inl (beq_false_of_ne first)
      rw [List.lookup_cons, List.lookup_cons, List.lookup_cons, List.lookup_cons]
      rcases either with other | other
      · rw [other]
      · rw [other]
  | trans perm₁ _ ih₁ ih₂ =>
      exact (ih₁ nodup).trans (ih₂ ((perm₁.map Prod.fst).nodup_iff.mp nodup))

theorem blockValue_perm {m : Matcher} {text text' : List Char}
    (perm : (blocks m (linesOf text)).Perm (blocks m (linesOf text')))
    (nodup : ((blocks m (linesOf text)).map Prod.fst).Nodup) (kind : BlockKind)
    (cl : ConfigOption) : blockValue m text kind cl = blockValue m text' kind cl := by
  rw [blockValue, blockValue, lookup_perm perm nodup]

/-- What `parseConfigFile` makes of a file: the application's block before the default block. -/
theorem parseConfigFile_value {m : Matcher} {text : List Char}
    (nodup : ((blocks m (linesOf text)).map Prod.fst).Nodup) (held : Held m text) {r r' : Reading}
    (ends : Ends m text r r') (cl : ConfigOption) :
    (r'.value cl = if cl ∈ r.readLines then r.value cl
      else ((blockValue m text .application cl).or (blockValue m text .default cl)).or
        (r.value cl)) ∧
      (cl ∈ r'.readLines ↔ cl ∈ r.readLines ∨
        ((blockValue m text .application cl).or (blockValue m text .default cl)).isSome) := by
  have reads := parseConfigFile_spec ⟨linesOf text, endsWithNewline text, nodup⟩ r
  rw [ends.unique (ends_of_held held r)]
  exact ⟨reads.value cl, reads.mem cl⟩

/-! ### Short files -/

/-- The characters of some lines, a newline behind each. -/
def bytes (lines : List Line) : Nat := (lines.map fun line => line.length + 1).sum

theorem bytes_linesOf (text : List Char) :
    bytes (linesOf text) =
      text.length + if text = [] ∨ endsWithNewline text = true then 0 else 1 := by
  induction text with
  | nil => rfl
  | cons c rest ih =>
      have ends : rest ≠ [] → endsWithNewline (c :: rest) = endsWithNewline rest := by
        intro nonempty
        rw [endsWithNewline, endsWithNewline, List.getLast?_cons_of_ne_nil nonempty]
      by_cases newline : c = '\n'
      · subst newline
        rw [linesOf_cons_newline, bytes, List.map_cons, List.sum_cons, ← bytes, ih]
        by_cases empty : rest = []
        · subst empty
          rfl
        · simp only [ends empty, empty, List.length_cons, List.length_nil, reduceCtorEq, false_or]
          omega
      · by_cases empty : rest = []
        · subst empty
          simp [linesOf, newline, bytes, endsWithNewline]
        · obtain ⟨line, lines, isLines⟩ : ∃ line lines, linesOf rest = line :: lines :=
            ⟨_, _, linesOf_eq empty⟩
          rw [isLines] at ih
          rw [linesOf, if_neg newline, isLines]
          simp only [bytes, List.map_cons, List.sum_cons, List.length_cons, ends empty, empty,
            reduceCtorEq, false_or] at ih ⊢
          omega

theorem bytes_pos {lines : List Line} (nonempty : lines ≠ []) : 0 < bytes lines := by
  obtain ⟨line, rest, rfl⟩ := List.exists_cons_of_ne_nil nonempty
  rw [bytes, List.map_cons, List.sum_cons]
  omega

theorem seeksHeld_of_short {m : Matcher} {newline : Bool} {lines : List Line} :
    ∀ {pos : Nat} {defaultDone specificDone : Bool},
      pos + bytes lines < 2 ^ 32 + (if newline then 0 else 1) →
      SeeksHeld m newline pos defaultDone specificDone lines := by
  induction lines with
  | nil => intros; trivial
  | cons line rest ih =>
      intro pos defaultDone specificDone short
      have length : bytes (line :: rest) = line.length + 1 + bytes rest := by
        rw [bytes, List.map_cons, List.sum_cons, ← bytes]
      rw [length] at short
      refine .inr (.inr ⟨.inr ?_, ih (by omega)⟩)
      by_cases last : rest = []
      · cases newline with
        | false => exact .inl ⟨last, rfl⟩
        | true =>
            right
            rw [if_pos rfl] at short
            omega
      · right
        have pos := bytes_pos last
        split at short <;> omega

/-- A file of less than `2 ^ 32` characters. -/
theorem held_of_short {m : Matcher} {text : List Char} (short : text.length < 2 ^ 32) :
    Held m text := by
  apply seeksHeld_of_short
  have length := bytes_linesOf text
  split at length
  · split <;> omega
  · next unended =>
      rw [not_or, Bool.not_eq_true] at unended
      rw [unended.2, if_neg Bool.false_ne_true]
      omega

theorem block_precedence (m : Matcher) (text : List Char)
    (nodup : ((blocks m (linesOf text)).map Prod.fst).Nodup) (held : Held m text) (r : Reading) :
    ∃ r', Ends m text r r' ∧
      (∀ cl, r'.value cl = if cl ∈ r.readLines then r.value cl
        else ((blockValue m text .application cl).or (blockValue m text .default cl)).or
          (r.value cl)) ∧
      (∀ cl, cl ∈ r'.readLines ↔ cl ∈ r.readLines ∨
        ((blockValue m text .application cl).or (blockValue m text .default cl)).isSome) ∧
      ∀ text', (blocks m (linesOf text')).Perm (blocks m (linesOf text)) → Held m text' →
        ∃ r'', Ends m text' r r'' ∧ r''.value = r'.value ∧
          ∀ cl, cl ∈ r''.readLines ↔ cl ∈ r'.readLines := by
  have ends := ends_of_held held r
  have value := parseConfigFile_value nodup held ends
  refine ⟨_, ends, fun cl => (value cl).1, fun cl => (value cl).2, ?_⟩
  intro text' perm held'
  have nodup' : ((blocks m (linesOf text')).map Prod.fst).Nodup :=
    (perm.map Prod.fst).nodup_iff.mpr nodup
  have ends' := ends_of_held held' r
  have value' := parseConfigFile_value nodup' held' ends'
  refine ⟨_, ends', ?_, ?_⟩
  · funext cl
    rw [(value' cl).1, (value cl).1, blockValue_perm perm nodup', blockValue_perm perm nodup']
  · intro cl
    rw [(value' cl).2, (value cl).2, blockValue_perm perm nodup', blockValue_perm perm nodup']

/-- An application `prog` with values without blanks. -/
def progMatcher : Matcher :=
  { plainMatcher with appName := fun rest => rest = "prog]".toList }

theorem block_precedence_default_first :
    ∃ r', Ends progMatcher "[default]\nmemory = 1\n[prog]\nmemory = 2\n".toList Reading.start r' ∧
      r'.value .memory = some "2".toList := by
  obtain ⟨r', ends, value, _⟩ := block_precedence progMatcher
    "[default]\nmemory = 1\n[prog]\nmemory = 2\n".toList (by decide)
    (held_of_short (by decide)) Reading.start
  refine ⟨r', ends, ?_⟩
  rw [value]
  decide

theorem strip_hash (n : Nat) : strip (List.replicate (n + 1) '#') = List.replicate (n + 1) '#' := by
  have stays : (List.replicate (n + 1) '#').dropWhile isSpace = List.replicate (n + 1) '#' := by
    rw [List.replicate_succ, List.dropWhile_cons_of_neg (by decide)]
  rw [strip, stays, List.reverse_replicate, stays, List.reverse_replicate]

/-- A comment that ends at `2 ^ 32` is read for ever. -/
theorem long_comment_loops :
    ¬ ∀ text, ((blocks plainMatcher (linesOf text)).map Prod.fst).Nodup →
      ∃ r', Ends plainMatcher text Reading.start r' := by
  intro terminates
  obtain ⟨n, isN⟩ : ∃ n, n + 1 + 1 = 2 ^ 32 := ⟨2 ^ 32 - 2, by norm_num⟩
  have plain : blockKind plainMatcher (strip (List.replicate (n + 1) '#')) = none := by
    rw [strip_hash, List.replicate_succ]
    simp [blockKind, matchDefault, matchApp]
  have inside : '\n' ∉ List.replicate (n + 1) '#' := by
    intro mem
    exact absurd (List.eq_of_mem_replicate mem) (by decide)
  have nodup : ((blocks plainMatcher (linesOf
      (List.replicate (n + 1) '#' ++ '\n' :: "[default]\nmemory = 1\n".toList))).map
        Prod.fst).Nodup := by
    rw [linesOf_append inside, blocks_cons_none plain]
    decide
  obtain ⟨r', bound, ends⟩ := terminates _ nodup
  have stops := ends bound (Nat.le_refl bound)
  have nonempty : strip (List.replicate (n + 1) '#') ≠ [] := by
    rw [strip_hash]
    exact List.cons_ne_nil _ _
  have wraps : ((List.replicate (n + 1) '#').length + 1) % 2 ^ 32 = 0 := by
    rw [List.length_replicate, isN, Nat.mod_self]
  rw [FileStream.parseConfigFile,
    FileStream.parseConfigFileLoop_wraps inside nonempty plain wraps rfl] at stops
  cases stops

end Rambrain.ConfigReader
