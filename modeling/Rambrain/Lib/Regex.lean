import Mathlib

/-!
Regular expressions of ECMAScript, as `std::regex` reads and matches them.

`compile` reads the text of a pattern, from left to right with the groups that are open on a stack;
it is `none` where the text is no pattern and `std::regex` throws. `Pattern.run` lists the ways to
match a pattern from a position on, the preferred ones first, and `regexMatch` asks for one that
takes the whole text. For a pattern of sets of characters, repeated, put in a row or offered as
alternatives (`Pattern.Regular`), `regexMatch_iff` says which texts these are.
-/

namespace Rambrain.Lib.Regex

/-! ### Characters -/

/-- `isspace` of the classic locale. -/
def isSpace (c : Char) : Bool :=
  c = ' ' ∨ c = '\t' ∨ c = '\n' ∨ c = Char.ofNat 11 ∨ c = Char.ofNat 12 ∨ c = '\r'

/-- `\w` -/
def isWord (c : Char) : Bool := c.isAlphanum ∨ c = '_'

/-- What `.` matches. -/
def isAny (c : Char) : Bool := ¬ (c = '\n' ∨ c = '\r')

/-- The characters with a meaning of their own, outside of brackets. -/
def specialCharacters : List Char :=
  ['^', '$', '\\', '.', '*', '+', '?', '(', ')', '[', '{', '|']

/-! ### Matching -/

/-- A position in a text, with what has been captured on the way to it. -/
structure Cursor where
  /-- What has been read, the last character first. -/
  before : List Char
  rest : List Char
  captures : List (Nat × List Char)

inductive Anchor where
  | start
  | finish
  | boundary
  | inside

/-- A word begins or ends here. -/
def Cursor.atBoundary (c : Cursor) : Bool := c.before.head?.any isWord != c.rest.head?.any isWord

def Anchor.holds (a : Anchor) (c : Cursor) : Bool :=
  match a with
  | start => c.before.isEmpty
  | finish => c.rest.isEmpty
  | boundary => c.atBoundary
  | inside => !c.atBoundary

inductive Pattern where
  | empty
  | set (p : Char → Bool)
  | anchor (a : Anchor)
  | seq (a b : Pattern)
  | alt (a b : Pattern)
  | group (n : Nat) (a : Pattern)
  | look (negative : Bool) (a : Pattern)
  | backref (n : Nat)
  | times (a : Pattern) (least : Nat) (most : Option Nat) (greedy : Bool)

/-- The numbers of the groups in a pattern. -/
def Pattern.groups : Pattern → List Nat
  | seq a b | alt a b => a.groups ++ b.groups
  | group n a => n :: a.groups
  | look _ a | times a _ _ _ => a.groups
  | _ => []

/-- Repeated matching: beyond `least` times, a round has to take a character. -/
def rounds (run : Cursor → List Cursor) (greedy : Bool) :
    Nat → Nat → Option Nat → Cursor → List Cursor
  | 0, _, _, _ => []
  | fuel + 1, least, most, c =>
      if most = some 0 then [c]
      else
        let more := ((run c).filter fun d => 0 < least ∨ d.rest.length < c.rest.length).flatMap
          (rounds run greedy fuel (least - 1) (most.map fun n => n - 1))
        if 0 < least then more else if greedy then more ++ [c] else c :: more

/-- The ways to match a pattern from a position on. -/
def Pattern.run : Pattern → Cursor → List Cursor
  | empty, c => [c]
  | set p, c =>
      match c.rest with
      | x :: rest => if p x then [{ c with before := x :: c.before, rest }] else []
      | [] => []
  | anchor a, c => if a.holds c then [c] else []
  | seq a b, c => (a.run c).flatMap b.run
  | alt a b, c => a.run c ++ b.run c
  | group n a, c => (a.run c).map fun d =>
      { d with captures := (n, c.rest.take (c.rest.length - d.rest.length)) :: d.captures }
  | look negative a, c =>
      match a.run c with
      | d :: _ => if negative then [] else [{ c with captures := d.captures }]
      | [] => if negative then [c] else []
  | backref n, c =>
      let w := (c.captures.lookup n).getD []
      if w.isPrefixOf c.rest then
        [{ c with before := w.reverse ++ c.before, rest := c.rest.drop w.length }]
      else []
  | times a least most greedy, c =>
      rounds (fun d => a.run
          { d with captures := d.captures.filter fun e => decide (e.1 ∉ a.groups) })
        greedy (least + c.rest.length + 1) least most c

/-- `regex_match ( text, pattern )` -/
def regexMatch (text : List Char) (a : Pattern) : Bool :=
  (a.run ⟨[], text, []⟩).any fun c => c.rest.isEmpty

/-! ### Reading a pattern -/

/-- What follows a backslash. -/
inductive Escaped where
  | char (c : Char)
  | set (p : Char → Bool)
  | boundary (inside : Bool)
  | backref (n : Nat)

def hexDigit (c : Char) : Option Nat :=
  if c.isDigit then some (c.toNat - '0'.toNat)
  else if 'a' ≤ c ∧ c ≤ 'f' then some (c.toNat - 'a'.toNat + 10)
  else if 'A' ≤ c ∧ c ≤ 'F' then some (c.toNat - 'A'.toNat + 10)
  else none

def hexNumber (digits : List Char) : Option Nat :=
  digits.foldl (fun n c => n.bind fun n => (hexDigit c).map fun d => 16 * n + d) (some 0)

def decimalNumber (digits : List Char) : Nat :=
  digits.foldl (fun n c => 10 * n + (c.toNat - '0'.toNat)) 0

/-- The escape at the beginning of the text, and its length. -/
def readEscape : List Char → Option (Escaped × Nat)
  | [] => none
  | c :: rest =>
      if c = 'd' then some (.set Char.isDigit, 1)
      else if c = 'D' then some (.set fun x => !x.isDigit, 1)
      else if c = 's' then some (.set isSpace, 1)
      else if c = 'S' then some (.set fun x => !isSpace x, 1)
      else if c = 'w' then some (.set isWord, 1)
      else if c = 'W' then some (.set fun x => !isWord x, 1)
      else if c = 'b' then some (.boundary false, 1)
      else if c = 'B' then some (.boundary true, 1)
      else if c = 't' then some (.char '\t', 1)
      else if c = 'n' then some (.char '\n', 1)
      else if c = 'v' then some (.char (Char.ofNat 11), 1)
      else if c = 'f' then some (.char (Char.ofNat 12), 1)
      else if c = 'r' then some (.char '\r', 1)
      else if c = 'c' then rest.head?.map fun x => (.char (Char.ofNat (x.toNat % 32)), 2)
      else if c = 'x' ∧ 2 ≤ rest.length then
        (hexNumber (rest.take 2)).map fun n => (.char (Char.ofNat n), 3)
      else if c = 'u' ∧ 4 ≤ rest.length then
        (hexNumber (rest.take 4)).map fun n => (.char (Char.ofNat n), 5)
      else if c = 'x' ∨ c = 'u' then none
      else if c = '0' then some (.char (Char.ofNat 0), 1)
      else if c.isDigit then
        let digits := c :: rest.takeWhile Char.isDigit
        some (.backref (decimalNumber digits), digits.length)
      else some (.char c, 1)

/-- `[:name:]` within brackets. -/
def namedSet (name : String) : Option (Char → Bool) :=
  match name with
  | "alnum" => some Char.isAlphanum
  | "alpha" => some Char.isAlpha
  | "blank" => some fun c => decide (c = ' ' ∨ c = '\t')
  | "cntrl" => some fun c => decide (c.toNat < 32 ∨ c.toNat = 127)
  | "digit" | "d" => some Char.isDigit
  | "graph" => some fun c => decide (32 < c.toNat ∧ c.toNat < 127)
  | "lower" => some Char.isLower
  | "print" => some fun c => decide (32 ≤ c.toNat ∧ c.toNat < 127)
  | "punct" => some fun c => decide (32 < c.toNat ∧ c.toNat < 127) && !c.isAlphanum
  | "space" | "s" => some isSpace
  | "upper" => some Char.isUpper
  | "xdigit" => some fun c => (hexDigit c).isSome
  | "w" => some isWord
  | _ => none

/-- What stands between brackets, as far as it has been read. -/
structure Bracket where
  set : Char → Bool
  /-- The last character, if a range may begin with it. -/
  last : Option Char
  /-- The beginning of a range whose end is awaited. -/
  range : Option Char
  used : Nat

/-- The next character between brackets. -/
def Bracket.add (b : Bracket) (c : Char) (length : Nat) : Option Bracket :=
  match b.range with
  | some a =>
      if a ≤ c then
        some ⟨fun x => b.set x || decide (a ≤ x ∧ x ≤ c), none, none, b.used + length⟩
      else none
  | none => some ⟨fun x => b.set x || decide (x = c), some c, none, b.used + length⟩

/-- A set of characters between brackets; a range cannot end with it. -/
def Bracket.addSet (b : Bracket) (p : Char → Bool) (length : Nat) : Option Bracket :=
  match b.range with
  | some _ => none
  | none => some ⟨fun x => b.set x || p x, none, none, b.used + length⟩

/-- The brackets up to the closing one; the first argument says how many characters to skip. -/
def readBracket : Nat → List Char → Bracket → Option Bracket
  | _, [], _ => none
  | skip + 1, _ :: rest, b => readBracket skip rest b
  | 0, c :: rest, b =>
      if c = ']' then
        let b := { b with used := b.used + 1 }
        match b.range with
        | some _ => some { b with set := fun x => b.set x || decide (x = '-') }
        | none => some b
      else if c = '\\' then
        match readEscape rest with
        | some (.char x, n) => (b.add x (n + 1)).bind (readBracket n rest)
        | some (.set p, n) => (b.addSet p (n + 1)).bind (readBracket n rest)
        | some (.boundary false, n) => (b.add (Char.ofNat 8) (n + 1)).bind (readBracket n rest)
        | _ => none
      else if c = '[' ∧ rest.head? = some ':' then
        let name := (rest.drop 1).takeWhile fun x => x != ':'
        if (rest.drop (name.length + 1)).take 2 = [':', ']'] then
          (namedSet (String.ofList name)).bind fun p =>
            (b.addSet p (name.length + 4)).bind (readBracket (name.length + 3) rest)
        else none
      else if c = '-' ∧ b.last.isSome ∧ b.range = none then
        readBracket 0 rest ⟨b.set, none, b.last, b.used + 1⟩
      else (b.add c 1).bind (readBracket 0 rest)

/-- The set in brackets behind a `[`, and the length of its text. -/
def readSet (text : List Char) : Option ((Char → Bool) × Nat) :=
  if text.head? = some '^' then
    (readBracket 1 text ⟨fun _ => false, none, none, 1⟩).map fun b => (fun x => !b.set x, b.used)
  else (readBracket 0 text ⟨fun _ => false, none, none, 0⟩).map fun b => (b.set, b.used)

/-- The numbers behind a `{`, and the length of their text. -/
def readInterval (text : List Char) : Option (Nat × Option Nat × Nat) :=
  let first := text.takeWhile Char.isDigit
  let behind := text.drop first.length
  let second := (behind.drop 1).takeWhile Char.isDigit
  if first = [] then none
  else if behind.head? = some '}' then
    some (decimalNumber first, some (decimalNumber first), first.length + 1)
  else if behind.head? = some ',' ∧ (behind.drop (second.length + 1)).head? = some '}' then
    if second = [] then some (decimalNumber first, none, first.length + 2)
    else if decimalNumber second < decimalNumber first then none
    else some (decimalNumber first, some (decimalNumber second), first.length + second.length + 2)
  else none

/-- What a closing parenthesis makes of the group. -/
inductive Opened where
  | text
  | group (n : Nat)
  | plain
  | look (negative : Bool)

/-- The term that was read last. -/
inductive Term where
  | none
  | atom (a : Pattern)
  | repeated (a : Pattern) (least : Nat) (most : Option Nat)

def Term.pattern : Term → Pattern
  | none => .empty
  | atom a => a
  | repeated a least most => .times a least most true

/-- A group that is open, or the whole text. -/
structure Frame where
  opened : Opened
  /-- The alternatives before the one that is being read. -/
  alternatives : Option Pattern
  /-- The terms before the last one. -/
  terms : Pattern
  last : Term

def Frame.new (opened : Opened) : Frame := ⟨opened, none, .empty, .none⟩

/-- The last term is done with. -/
def Frame.settle (f : Frame) : Pattern :=
  match f.last with
  | .none => f.terms
  | t => .seq f.terms t.pattern

def Frame.push (f : Frame) (t : Term) : Frame := { f with terms := f.settle, last := t }

/-- A term that cannot be repeated. -/
def Frame.pushAnchor (f : Frame) (a : Pattern) : Frame :=
  { f with terms := .seq f.settle a, last := .none }

def Frame.close (f : Frame) : Pattern :=
  match f.alternatives with
  | some a => .alt a f.settle
  | none => f.settle

/-- The groups that are open, the innermost first, and how many there have been. -/
structure Parser where
  frame : Frame
  outer : List Frame
  groups : Nat

def Parser.onFrame (s : Parser) (f : Frame → Frame) : Parser := { s with frame := f s.frame }

def Parser.openGroup (s : Parser) (opened : Opened) (groups : Nat) : Parser :=
  ⟨.new opened, s.frame :: s.outer, groups⟩

/-- The last term is repeated. -/
def Parser.quantify (s : Parser) (least : Nat) (most : Option Nat) : Option Parser :=
  match s.frame.last with
  | .atom a => some (s.onFrame fun f => { f with last := .repeated a least most })
  | _ => none

/-- A `)`. -/
def Parser.close (s : Parser) : Option Parser :=
  match s.outer with
  | [] => none
  | f :: outer =>
      let body := s.frame.close
      let f := match s.frame.opened with
        | .text => f
        | .group n => f.push (.atom (.group n body))
        | .plain => f.push (.atom body)
        | .look negative => f.pushAnchor (.look negative body)
      some ⟨f, outer, s.groups⟩

/-- One character of the pattern that stands for something, and how many behind it belong to it. -/
def Parser.special (s : Parser) (c : Char) (rest : List Char) : Option (Parser × Nat) :=
  if c = '|' then
    some (s.onFrame fun f => ⟨f.opened, some f.close, .empty, .none⟩, 0)
  else if c = '(' then
    match rest with
    | '?' :: ':' :: _ => some (s.openGroup .plain s.groups, 2)
    | '?' :: '=' :: _ => some (s.openGroup (.look false) s.groups, 2)
    | '?' :: '!' :: _ => some (s.openGroup (.look true) s.groups, 2)
    | _ => some (s.openGroup (.group (s.groups + 1)) (s.groups + 1), 0)
  else if c = ')' then s.close.map fun s => (s, 0)
  else if c = '*' then (s.quantify 0 none).map fun s => (s, 0)
  else if c = '+' then (s.quantify 1 none).map fun s => (s, 0)
  else if c = '?' then
    match s.frame.last with
    | .repeated a least most =>
        some (s.onFrame fun f => { f with last := .none }.pushAnchor (.times a least most false), 0)
    | _ => (s.quantify 0 (some 1)).map fun s => (s, 0)
  else if c = '{' then
    (readInterval rest).bind fun r => (s.quantify r.1 r.2.1).map fun s => (s, r.2.2)
  else if c = '[' then
    (readSet rest).map fun r => (s.onFrame fun f => f.push (.atom (.set r.1)), r.2)
  else if c = '\\' then
    match readEscape rest with
    | some (.char x, n) => some (s.onFrame fun f => f.push (.atom (.set fun y => y = x)), n)
    | some (.set p, n) => some (s.onFrame fun f => f.push (.atom (.set p)), n)
    | some (.boundary inside, n) =>
        some (s.onFrame fun f => f.pushAnchor (.anchor (if inside then .inside else .boundary)), n)
    | some (.backref k, n) =>
        if k ≤ s.groups then some (s.onFrame fun f => f.push (.atom (.backref k)), n) else none
    | none => none
  else if c = '.' then some (s.onFrame fun f => f.push (.atom (.set isAny)), 0)
  else if c = '^' then some (s.onFrame fun f => f.pushAnchor (.anchor .start), 0)
  else some (s.onFrame fun f => f.pushAnchor (.anchor .finish), 0)

/-- Reads a pattern; the first argument says how many characters to skip. -/
def parse : Nat → List Char → Parser → Option Parser
  | _, [], s => some s
  | skip + 1, _ :: rest, s => parse skip rest s
  | 0, c :: rest, s =>
      if c ∈ specialCharacters then
        match s.special c rest with
        | some (s, n) => parse n rest s
        | none => none
      else parse 0 rest (s.onFrame fun f => f.push (.atom (.set fun x => x = c)))

/-- `regex ( text )`; `none` when it throws. -/
def compile (text : List Char) : Option Pattern :=
  match parse 0 text ⟨.new .text, [], 0⟩ with
  | some ⟨frame, [], _⟩ => some frame.close
  | _ => none

/-! ### The language of a pattern -/

/-- A pattern of sets of characters, repeated, in a row or as alternatives. -/
def Pattern.Regular : Pattern → Prop
  | empty | set _ => True
  | seq a b | alt a b => a.Regular ∧ b.Regular
  | times (set _) least most _ => ∀ n ∈ most, least ≤ n
  | _ => False

/-- The words that a regular pattern matches. -/
def Pattern.words : Pattern → Language Char
  | empty => 1
  | set p => { w | ∃ c, p c = true ∧ w = [c] }
  | seq a b => a.words * b.words
  | alt a b => a.words + b.words
  | times (set p) least most _ =>
      { w | (∀ c ∈ w, p c = true) ∧ least ≤ w.length ∧ ∀ n ∈ most, w.length ≤ n }
  | _ => 0

/-- The word is read between the positions. -/
structure Cursor.Reads (c : Cursor) (w : List Char) (d : Cursor) : Prop where
  rest : c.rest = w ++ d.rest
  before : d.before = w.reverse ++ c.before
  captures : d.captures = c.captures

theorem Cursor.reads_nil_iff {c d : Cursor} : c.Reads [] d ↔ d = c := by
  constructor
  · rintro ⟨rest, before, captures⟩
    cases c
    cases d
    simp only [List.nil_append, List.reverse_nil] at rest before captures
    rw [rest, before, captures]
  · rintro rfl
    exact ⟨rfl, rfl, rfl⟩

theorem Cursor.reads_append_iff {c d : Cursor} {v w : List Char} :
    c.Reads (v ++ w) d ↔ ∃ e, c.Reads v e ∧ e.Reads w d := by
  constructor
  · rintro ⟨rest, before, captures⟩
    refine ⟨⟨v.reverse ++ c.before, w ++ d.rest, c.captures⟩, ⟨?_, rfl, rfl⟩, ⟨rfl, ?_, captures⟩⟩
    · rw [rest, List.append_assoc]
    · rw [before, List.reverse_append, List.append_assoc]
  · rintro ⟨e, first, second⟩
    refine ⟨?_, ?_, second.captures.trans first.captures⟩
    · rw [first.rest, second.rest, List.append_assoc]
    · rw [second.before, first.before, List.reverse_append, List.append_assoc]

theorem mem_run_set {p : Char → Bool} {c d : Cursor} :
    d ∈ (Pattern.set p).run c ↔ ∃ x, p x = true ∧ c.Reads [x] d := by
  rw [Pattern.run]
  cases is : c.rest with
  | nil =>
      refine iff_of_false List.not_mem_nil ?_
      rintro ⟨x, _, reads⟩
      rw [reads.rest] at is
      cases is
  | cons x rest =>
      simp only
      split_ifs with takes
      · rw [List.mem_singleton]
        constructor
        · rintro rfl
          exact ⟨x, takes, is, rfl, rfl⟩
        · rintro ⟨y, _, reads⟩
          have both := reads.rest
          rw [is] at both
          cases d
          cases both
          simp only [Cursor.mk.injEq]
          exact ⟨reads.before, rfl, reads.captures⟩
      · refine iff_of_false List.not_mem_nil ?_
        rintro ⟨y, takesY, reads⟩
        have both := reads.rest
        rw [is] at both
        cases both
        exact takes takesY

/-- A round of a set reads one character, so what is left is always less. -/
theorem mem_round (p : Char → Bool) (least : Nat) (onward : Cursor → List Cursor) (c d : Cursor) :
    d ∈ (((Pattern.set p).run c).filter fun e =>
        decide (0 < least ∨ e.rest.length < c.rest.length)).flatMap onward ↔
      ∃ x e, p x = true ∧ c.Reads [x] e ∧ d ∈ onward e := by
  simp only [List.mem_flatMap, List.mem_filter, mem_run_set]
  constructor
  · rintro ⟨e, ⟨⟨x, takes, reads⟩, _⟩, mem⟩
    exact ⟨x, e, takes, reads, mem⟩
  · rintro ⟨x, e, takes, reads, mem⟩
    have length := congrArg List.length reads.rest
    simp only [List.length_append, List.length_singleton] at length
    exact ⟨e, ⟨⟨x, takes, reads⟩, decide_eq_true (.inr (by omega))⟩, mem⟩

/-- One more repetition, where one is allowed. -/
theorem repeats_cons {p : Char → Bool} {least : Nat} {most : Option Nat} (notLast : most ≠ some 0)
    (x : Char) (w : List Char) :
    ((∀ y ∈ x :: w, p y = true) ∧ least ≤ (x :: w).length ∧ ∀ n ∈ most, (x :: w).length ≤ n) ↔
      p x = true ∧ (∀ y ∈ w, p y = true) ∧ least - 1 ≤ w.length ∧
        ∀ n ∈ most.map fun n => n - 1, w.length ≤ n := by
  have fewer : least ≤ (x :: w).length ↔ least - 1 ≤ w.length := by
    rw [List.length_cons]
    omega
  have bounded : (∀ n ∈ most, (x :: w).length ≤ n) ↔
      ∀ n ∈ most.map fun n => n - 1, w.length ≤ n := by
    cases most with
    | none => simp
    | some n =>
        have pos : n ≠ 0 := fun zero => notLast (by rw [zero])
        simp only [Option.mem_def, Option.some_inj, forall_eq', Option.map_some, List.length_cons]
        omega
  rw [List.forall_mem_cons, fewer, bounded, and_assoc]

theorem mem_rounds_set (p : Char → Bool) (greedy : Bool) : ∀ (fuel least : Nat)
    (most : Option Nat) {c d : Cursor}, c.rest.length < fuel → (∀ n ∈ most, least ≤ n) →
    (d ∈ rounds (Pattern.set p).run greedy fuel least most c ↔
      ∃ w, (∀ x ∈ w, p x = true) ∧ least ≤ w.length ∧ (∀ n ∈ most, w.length ≤ n) ∧
        c.Reads w d) := by
  intro fuel
  induction fuel with
  | zero =>
      intro least most c d less
      cases less
  | succ fuel ih =>
      intro least most c d less fits
      obtain ⟨all, isAll⟩ : ∃ all, all = ((((Pattern.set p).run c).filter fun e =>
          decide (0 < least ∨ e.rest.length < c.rest.length)).flatMap
          (rounds (Pattern.set p).run greedy fuel (least - 1) (most.map fun n => n - 1))) :=
        ⟨_, rfl⟩
      have step : rounds (Pattern.set p).run greedy (fuel + 1) least most c =
          if most = some 0 then [c]
          else if 0 < least then all else if greedy then all ++ [c] else c :: all := by
        rw [isAll]
        rfl
      rw [step]
      by_cases last : most = some 0
      · subst last
        have zero : least = 0 := Nat.le_zero.mp (fits 0 rfl)
        rw [if_pos rfl, List.mem_singleton, ← Cursor.reads_nil_iff]
        constructor
        · intro reads
          exact ⟨[], by simp, by omega, by simp, reads⟩
        · rintro ⟨w, _, _, short, reads⟩
          have empty : w = [] := List.eq_nil_of_length_eq_zero (Nat.le_zero.mp (short 0 rfl))
          rwa [empty] at reads
      · rw [if_neg last]
        -- a round reads one character and goes on with what is left
        have more : d ∈ all ↔ ∃ w, w ≠ [] ∧ (∀ x ∈ w, p x = true) ∧ least ≤ w.length ∧
              (∀ n ∈ most, w.length ≤ n) ∧ c.Reads w d := by
          have fits' : ∀ n ∈ most.map fun n => n - 1, least - 1 ≤ n := by
            intro n mem
            obtain ⟨m, isM, rfl⟩ := Option.mem_map.mp mem
            exact Nat.sub_le_sub_right (fits m isM) 1
          have shorter : ∀ {x e}, c.Reads [x] e → e.rest.length < fuel := by
            intro x e reads
            have length := congrArg List.length reads.rest
            simp only [List.length_append, List.length_singleton] at length
            omega
          rw [isAll, mem_round]
          constructor
          · rintro ⟨x, e, takes, reads, mem⟩
            obtain ⟨w, all, least', most', reads'⟩ := (ih _ _ (shorter reads) fits').mp mem
            obtain ⟨all', least'', most''⟩ :=
              (repeats_cons last x w).mpr ⟨takes, all, least', most'⟩
            exact ⟨x :: w, List.cons_ne_nil x w, all', least'', most'',
              (Cursor.reads_append_iff (v := [x])).mpr ⟨e, reads, reads'⟩⟩
          · rintro ⟨w, nonempty, all, least', most', reads⟩
            obtain ⟨x, w, rfl⟩ := List.exists_cons_of_ne_nil nonempty
            obtain ⟨e, first, second⟩ := (Cursor.reads_append_iff (v := [x])).mp reads
            obtain ⟨takes, all', least'', most''⟩ :=
              (repeats_cons last x w).mp ⟨all, least', most'⟩
            exact ⟨x, e, takes, first,
              (ih _ _ (shorter first) fits').mpr ⟨w, all', least'', most'', second⟩⟩
        by_cases must : 0 < least
        · rw [if_pos must, more]
          constructor
          · rintro ⟨w, _, rest⟩
            exact ⟨w, rest⟩
          · rintro ⟨w, takes, least', rest⟩
            refine ⟨w, ?_, takes, least', rest⟩
            rintro rfl
            exact absurd least' (Nat.not_le.mpr must)
        · have either : d ∈ (if greedy then all ++ [c] else c :: all) ↔ d ∈ all ∨ d = c := by
            split_ifs
            · rw [List.mem_append, List.mem_singleton]
            · rw [List.mem_cons, or_comm]
          rw [if_neg must, either, more, ← Cursor.reads_nil_iff]
          constructor
          · rintro (⟨w, _, rest⟩ | reads)
            · exact ⟨w, rest⟩
            · exact ⟨[], by simp, by simp; omega, by simp, reads⟩
          · rintro ⟨w, rest⟩
            by_cases empty : w = []
            · subst empty
              exact .inr rest.2.2.2
            · exact .inl ⟨w, empty, rest⟩

theorem Pattern.run_seq (a b : Pattern) (c : Cursor) :
    (seq a b).run c = (a.run c).flatMap b.run := rfl

theorem Pattern.run_alt (a b : Pattern) (c : Cursor) : (alt a b).run c = a.run c ++ b.run c := rfl

theorem Pattern.run_times_set (p : Char → Bool) (least : Nat) (most : Option Nat) (greedy : Bool)
    (c : Cursor) : (times (set p) least most greedy).run c =
      rounds (set p).run greedy (least + c.rest.length + 1) least most c := by
  have same : (fun e : Cursor => (set p).run { e with
      captures := e.captures.filter fun f => decide (f.1 ∉ (set p).groups) }) = (set p).run := by
    funext e
    have whole : (e.captures.filter fun f => decide (f.1 ∉ (set p).groups)) = e.captures :=
      List.filter_eq_self.mpr fun f _ => by simp [groups]
    rw [whole]
  rw [← same]
  rfl

theorem Pattern.words_seq (a b : Pattern) : (seq a b).words = a.words * b.words := rfl

theorem Pattern.words_alt (a b : Pattern) : (alt a b).words = a.words + b.words := rfl

/-- What a regular pattern reads from a position on are its words. -/
theorem mem_run_iff {a : Pattern} (regular : a.Regular) {c d : Cursor} :
    d ∈ a.run c ↔ ∃ w ∈ a.words, c.Reads w d := by
  induction a generalizing c d with
  | empty =>
      have run : Pattern.empty.run c = [c] := rfl
      rw [run, List.mem_singleton, ← Cursor.reads_nil_iff]
      constructor
      · intro reads
        exact ⟨[], rfl, reads⟩
      · rintro ⟨w, rfl, reads⟩
        exact reads
  | set p =>
      rw [mem_run_set]
      constructor
      · rintro ⟨x, takes, reads⟩
        exact ⟨[x], ⟨x, takes, rfl⟩, reads⟩
      · rintro ⟨w, ⟨x, takes, rfl⟩, reads⟩
        exact ⟨x, takes, reads⟩
  | seq a b ihA ihB =>
      rw [Pattern.run_seq, List.mem_flatMap, Pattern.words_seq]
      constructor
      · rintro ⟨e, memE, memD⟩
        obtain ⟨v, memV, first⟩ := (ihA regular.1).mp memE
        obtain ⟨w, memW, second⟩ := (ihB regular.2).mp memD
        exact ⟨v ++ w, Language.append_mem_mul memV memW,
          Cursor.reads_append_iff.mpr ⟨e, first, second⟩⟩
      · rintro ⟨u, mem, reads⟩
        obtain ⟨v, memV, w, memW, rfl⟩ := Language.mem_mul.mp mem
        obtain ⟨e, first, second⟩ := Cursor.reads_append_iff.mp reads
        exact ⟨e, (ihA regular.1).mpr ⟨v, memV, first⟩, (ihB regular.2).mpr ⟨w, memW, second⟩⟩
  | alt a b ihA ihB =>
      rw [Pattern.run_alt, List.mem_append, Pattern.words_alt, ihA regular.1, ihB regular.2]
      simp only [Language.mem_add, or_and_right, exists_or]
  | times a least most greedy =>
      cases a with
      | set p =>
          rw [Pattern.run_times_set, mem_rounds_set p greedy _ _ _ (by omega) regular]
          constructor
          · rintro ⟨w, takes, least', most', reads⟩
            exact ⟨w, ⟨takes, least', most'⟩, reads⟩
          · rintro ⟨w, ⟨takes, least', most'⟩, reads⟩
            exact ⟨w, takes, least', most', reads⟩
      | _ => exact regular.elim
  | _ => exact regular.elim

theorem regexMatch_iff {a : Pattern} (regular : a.Regular) (text : List Char) :
    regexMatch text a = true ↔ text ∈ a.words := by
  rw [regexMatch, List.any_eq_true]
  constructor
  · rintro ⟨d, mem, done⟩
    obtain ⟨w, memW, reads⟩ := (mem_run_iff regular).mp mem
    have whole : text = w ++ d.rest := reads.rest
    rw [whole, List.isEmpty_iff.mp done, List.append_nil]
    exact memW
  · intro mem
    have reads : Cursor.Reads ⟨[], text, []⟩ text ⟨text.reverse ++ [], [], []⟩ :=
      ⟨(List.append_nil text).symm, rfl, rfl⟩
    exact ⟨_, (mem_run_iff regular).mpr ⟨text, mem, reads⟩, rfl⟩

/-! ### Reading characters that stand for themselves, and dots -/

/-- What a character of a pattern matches that is no special one, or a dot. -/
def charSet (c : Char) : Char → Bool := if c = '.' then isAny else fun x => x = c

/-- A text that such characters match one by one. -/
def Stands (text characters : List Char) : Prop :=
  List.Forall₂ (fun x c => charSet c x = true) text characters

theorem stands_iff_eq {characters : List Char} (without : '.' ∉ characters) (text : List Char) :
    Stands text characters ↔ text = characters := by
  induction characters generalizing text with
  | nil => exact List.forall₂_nil_right_iff
  | cons c characters ih =>
      simp only [List.mem_cons, not_or] at without
      have here : ∀ x, charSet c x = true ↔ x = c := by
        intro x
        rw [charSet, if_neg (Ne.symm without.1), decide_eq_true_eq]
      rw [Stands, List.forall₂_cons_right_iff]
      constructor
      · rintro ⟨x, rest, takes, stands, rfl⟩
        rw [(here x).mp takes, (ih without.2 rest).mp stands]
      · rintro rfl
        exact ⟨c, characters, (here c).mpr rfl, (ih without.2 characters).mpr rfl, rfl⟩

/-- The pattern of such characters, read one by one behind the terms of a frame. -/
def Frame.pushAll (f : Frame) (text : List Char) : Frame :=
  text.foldl (fun f c => f.push (.atom (.set (charSet c)))) f

theorem special_dot (s : Parser) (rest : List Char) :
    s.special '.' rest = some (s.onFrame fun f => f.push (.atom (.set isAny)), 0) := rfl

theorem parse_characters : ∀ (text rest : List Char) (s : Parser),
    (∀ c ∈ text, c = '.' ∨ c ∉ specialCharacters) →
    parse 0 (text ++ rest) s = parse 0 rest (s.onFrame fun f => f.pushAll text)
  | [], _, _, _ => rfl
  | c :: text, rest, s, plain => by
      have later := parse_characters text rest
        (s.onFrame fun f => f.push (.atom (.set (charSet c)))) fun x mem =>
          plain x (List.mem_cons_of_mem c mem)
      rw [List.cons_append]
      by_cases dot : c = '.'
      · subst dot
        rw [parse, if_pos (by decide), special_dot]
        exact later
      · have here := (plain c List.mem_cons_self).resolve_left dot
        have set : charSet c = fun x => decide (x = c) := if_neg dot
        rw [set] at later
        rw [parse, if_neg here, later, ← set]
        rfl

/-- A frame has read what its terms match, and a character behind it. -/
theorem mem_push_words (f : Frame) (p : Char → Bool) (w : List Char) :
    w ∈ (f.push (.atom (.set p))).settle.words ↔
      ∃ v ∈ f.settle.words, ∃ x, p x = true ∧ w = v ++ [x] := by
  have words : (f.push (.atom (.set p))).settle.words =
      f.settle.words * (Pattern.set p).words := rfl
  rw [words, Language.mem_mul]
  constructor
  · rintro ⟨v, memV, _, ⟨x, takes, rfl⟩, rfl⟩
    exact ⟨v, memV, x, takes, rfl⟩
  · rintro ⟨v, memV, x, takes, rfl⟩
    exact ⟨v, memV, [x], ⟨x, takes, rfl⟩, rfl⟩

theorem Frame.close_eq {f : Frame} (one : f.alternatives = none) : f.close = f.settle := by
  unfold Frame.close
  rw [one]

theorem mem_pushAll_words (text : List Char) (f : Frame) (w : List Char) :
    w ∈ (f.pushAll text).settle.words ↔
      ∃ v ∈ f.settle.words, ∃ u, Stands u text ∧ w = v ++ u := by
  induction text generalizing f with
  | nil => simp [Frame.pushAll, Stands]
  | cons c text ih =>
      have first : f.pushAll (c :: text) = (f.push (.atom (.set (charSet c)))).pushAll text := rfl
      rw [first, ih]
      simp only [mem_push_words]
      constructor
      · rintro ⟨_, ⟨v, memV, x, takes, rfl⟩, u, stands, rfl⟩
        refine ⟨v, memV, x :: u, List.Forall₂.cons takes stands, ?_⟩
        rw [List.append_assoc, List.singleton_append]
      · rintro ⟨v, memV, _, stands, rfl⟩
        obtain ⟨x, u, takes, later, rfl⟩ := List.forall₂_cons_right_iff.mp stands
        refine ⟨v ++ [x], ⟨v, memV, x, takes, rfl⟩, u, later, ?_⟩
        rw [List.append_assoc, List.singleton_append]

theorem pushAll_regular (text : List Char) (f : Frame) (regular : f.settle.Regular) :
    (f.pushAll text).settle.Regular := by
  induction text generalizing f with
  | nil => exact regular
  | cons c text ih => exact ih _ ⟨regular, trivial⟩

/-! ### Replacing -/

/-- A match within a text. -/
structure Match where
  /-- The text between the match before it and this one. -/
  before : List Char
  text : List Char
  behind : List Char
  captures : List (Nat × List Char)

/-- `$n` -/
def Match.numbered (m : Match) (n : Nat) : List Char :=
  if n = 0 then m.text else (m.captures.lookup n).getD []

def backtick : Char := Char.ofNat 96

def apostrophe : Char := Char.ofNat 39

/-- The characters that have a meaning behind a `$`. -/
def isReplacement (c : Char) : Bool :=
  c = '$' ∨ c = '&' ∨ c = backtick ∨ c = apostrophe ∨ c.isDigit

/-- What stands for a `$` and the text behind it, and how many characters of the text it takes;
`none` when the `$` stands for itself. -/
def Match.replacement (m : Match) : List Char → Option (List Char × Nat)
  | [] => none
  | c :: rest =>
      if c = '$' then some (['$'], 1)
      else if c = '&' then some (m.text, 1)
      else if c = backtick then some (m.before, 1)
      else if c = apostrophe then some (m.behind, 1)
      else if c.isDigit then
        let digits := c :: (rest.take 1).filter Char.isDigit
        some (m.numbered (decimalNumber digits), digits.length)
      else none

/-- The format of a replacement, written out; the first argument says how many characters to
skip. -/
def Match.formatFrom (m : Match) : Nat → List Char → List Char
  | _, [] => []
  | skip + 1, _ :: rest => m.formatFrom skip rest
  | 0, c :: rest =>
      if c = '$' then
        match m.replacement rest with
        | some (text, n) => text ++ m.formatFrom n rest
        | none => '$' :: m.formatFrom 0 rest
      else c :: m.formatFrom 0 rest

/-- `match.format ( format )` -/
def Match.format (m : Match) (format : List Char) : List Char := m.formatFrom 0 format

/-- The matches of a pattern from a position on are replaced; a match takes at least a character.
The first argument says how many characters to skip. -/
def replaceFrom (a : Pattern) (format : List Char) :
    Nat → List Char → List Char → List Char → List Char
  | _, between, _, [] => between
  | skip + 1, between, before, c :: rest => replaceFrom a format skip between (c :: before) rest
  | 0, between, before, c :: rest =>
      match (a.run ⟨before, c :: rest, []⟩).head? with
      | some d =>
          let length := rest.length + 1 - d.rest.length
          if length = 0 then replaceFrom a format 0 (between ++ [c]) (c :: before) rest
          else
            let m : Match := ⟨between, (c :: rest).take length, d.rest, d.captures⟩
            between ++ m.format format ++
              replaceFrom a format (length - 1) [] (c :: before) rest
      | none => replaceFrom a format 0 (between ++ [c]) (c :: before) rest

/-- `regex_replace ( text, a, format )`, for a pattern that does not match the empty text. -/
def regexReplace (text : List Char) (a : Pattern) (format : List Char) : List Char :=
  replaceFrom a format 0 [] [] text

/-- A `$` of the format has a meaning. -/
def interprets : List Char → Bool
  | c :: d :: rest => (c = '$' && isReplacement d) || interprets (d :: rest)
  | _ => false

section
variable {m : Match}

theorem formatFrom_skip (m : Match) (skip : Nat) (text : List Char) :
    m.formatFrom skip text = m.format (text.drop skip) := by
  induction text generalizing skip with
  | nil => cases skip <;> rfl
  | cons c rest ih =>
      cases skip with
      | zero => rfl
      | succ skip => exact ih skip

theorem format_cons {c : Char} (ne : c ≠ '$') (rest : List Char) :
    m.format (c :: rest) = c :: m.format rest := by
  rw [Match.format, Match.formatFrom, if_neg ne]
  rfl

theorem format_some {rest text : List Char} {n : Nat} (is : m.replacement rest = some (text, n)) :
    m.format ('$' :: rest) = text ++ m.format (rest.drop n) := by
  rw [Match.format, Match.formatFrom, if_pos rfl, is, ← formatFrom_skip]

theorem format_none {rest : List Char} (is : m.replacement rest = none) :
    m.format ('$' :: rest) = '$' :: m.format rest := by
  rw [Match.format, Match.formatFrom, if_pos rfl, is]
  rfl

theorem replacement_none {rest : List Char} (is : m.replacement rest = none) :
    interprets ('$' :: rest) = interprets rest := by
  cases rest with
  | nil => rfl
  | cons c rest =>
      have not : isReplacement c = false := by
        simp only [Match.replacement] at is
        split_ifs at is with h₁ h₂ h₃ h₄ h₅
        simp [isReplacement, h₁, h₂, h₃, h₄, h₅]
      rw [interprets, not, Bool.and_false, Bool.false_or]

theorem interprets_cons {c : Char} (ne : c ≠ '$') (rest : List Char) :
    interprets (c :: rest) = interprets rest := by
  cases rest with
  | nil => rfl
  | cons d rest => rw [interprets, decide_eq_false ne, Bool.false_and, Bool.false_or]

/-- A match without a `$` in its texts. -/
structure Match.Calm (m : Match) : Prop where
  before : '$' ∉ m.before
  text : '$' ∉ m.text
  behind : '$' ∉ m.behind
  captures : ∀ e ∈ m.captures, '$' ∉ e.2

theorem Match.Calm.numbered (calm : m.Calm) (n : Nat) : '$' ∉ m.numbered n := by
  unfold Match.numbered
  split
  · exact calm.text
  · cases found : m.captures.lookup n with
    | none => exact List.not_mem_nil
    | some w =>
        obtain ⟨l, r, is, _⟩ := List.lookup_eq_some_iff.mp found
        refine calm.captures (n, w) ?_
        rw [is]
        exact List.mem_append_right l List.mem_cons_self

/-- What stands for a `$` has no more of them than the text it takes. -/
theorem Match.Calm.replacement_count (calm : m.Calm) {rest text : List Char} {n : Nat}
    (is : m.replacement rest = some (text, n)) : text.count '$' ≤ (rest.take n).count '$' := by
  cases rest with
  | nil => cases is
  | cons c rest =>
      simp only [Match.replacement] at is
      split_ifs at is with h₁ h₂ h₃ h₄ h₅
      · cases is
        rw [h₁]
        exact le_rfl
      all_goals
        cases is
        refine le_of_eq_of_le (List.count_eq_zero.mpr ?_) (Nat.zero_le _)
      · exact calm.text
      · exact calm.before
      · exact calm.behind
      · exact calm.numbered _

/-- A replacement has fewer `$` than its format, if one of them has a meaning. -/
theorem Match.Calm.format_count (calm : m.Calm) (format : List Char) :
    (m.format format).count '$' + (if interprets format then 1 else 0) ≤ format.count '$' := by
  induction is : format.length using Nat.strong_induction_on generalizing format with
  | _ length ih =>
      cases format with
      | nil => exact le_rfl
      | cons c rest =>
          rw [List.length_cons] at is
          by_cases dollar : c = '$'
          · subst dollar
            rw [List.count_cons_self]
            cases found : m.replacement rest with
            | none =>
                have behind := ih rest.length (by omega) rest rfl
                rw [format_none found, replacement_none found, List.count_cons_self]
                omega
            | some taken =>
                obtain ⟨text, n⟩ := taken
                have behind := ih (rest.drop n).length (by
                  rw [List.length_drop]
                  omega) (rest.drop n) rfl
                have here := calm.replacement_count found
                have whole : rest.count '$' =
                    (rest.take n).count '$' + (rest.drop n).count '$' := by
                  rw [← List.count_append, List.take_append_drop]
                rw [format_some found, List.count_append]
                split <;> omega
          · have behind := ih rest.length (by omega) rest rfl
            rw [format_cons dollar, interprets_cons dollar, List.count_cons_of_ne dollar,
              List.count_cons_of_ne dollar]
            exact behind

theorem format_verbatim {format : List Char} (plain : interprets format = false) :
    m.format format = format := by
  induction format with
  | nil => rfl
  | cons c rest ih =>
      by_cases dollar : c = '$'
      · subst dollar
        cases found : m.replacement rest with
        | none =>
            rw [replacement_none found] at plain
            rw [format_none found, ih plain]
        | some taken =>
            exfalso
            cases rest with
            | nil => cases found
            | cons d rest =>
                rw [interprets, decide_eq_true rfl, Bool.true_and, Bool.or_eq_false_iff] at plain
                simp only [Match.replacement] at found
                simp only [isReplacement, decide_eq_false_iff_not, not_or] at plain
                simp [plain.1] at found
      · rw [interprets_cons dollar] at plain
        rw [format_cons dollar, ih plain]

/-- A replacement is written as it stands exactly when none of its `$` has a meaning. -/
theorem Match.Calm.format_eq_iff (calm : m.Calm) (format : List Char) :
    m.format format = format ↔ interprets format = false := by
  refine ⟨fun same => ?_, format_verbatim⟩
  have count := calm.format_count format
  rw [same] at count
  by_contra not
  rw [Bool.not_eq_false] at not
  rw [if_pos not] at count
  omega

end

end Rambrain.Lib.Regex
