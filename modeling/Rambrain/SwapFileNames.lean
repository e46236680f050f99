import Rambrain.SwapFileMask

/-!
The names of swap files.

`openSwapFileRange` prints the process id and the number of the file into the mask, and cuts the
name at 1023 characters. Two owners get one name when a part of the text between the numbers can be
read as digits of them: `Mask.Confusable` says when this is so, and `names_differ_iff` that there is
no other way as long as no name is cut.
-/

namespace Rambrain.RegexMatcher

open Lib.Regex Lib.Printf

/-- The name of a swap file: `snprintf ( fname, 1024, filemask, getpid(), n )`. -/
def fname (filemask : Line) (pid n : Nat) : Option Line :=
  (sprintf filemask [pid, n]).map fun name => name.take 1023

/-- The name of the file with all its characters. -/
def Mask.name (mask : Mask) (pid n : Nat) : Line := mask.fill (decimal pid) (decimal n)

/-- The name is not cut. -/
def Mask.Fits (mask : Mask) (pid n : Nat) : Prop := (mask.name pid n).length ≤ 1023

/-- What `d` digits behind the first number are at least when the text between the numbers is read
as a part of it. -/
def Mask.front (mask : Mask) (d : Nat) : Line :=
  if d ≤ mask.mid.length then mask.mid.take d
  else mask.mid ++ '1' :: List.replicate (d - mask.mid.length - 1) '0'

/-- What `d` digits before the second number are at least then. -/
def Mask.back (mask : Mask) (d : Nat) : Line :=
  if d ≤ mask.mid.length then mask.mid.drop (mask.mid.length - d)
  else '1' :: List.replicate (d - mask.mid.length - 1) '0' ++ mask.mid

/-- The text between the numbers can be moved by `d` digits, for numbers below `limit` and in a name
that is not cut. -/
structure Mask.Shifts (mask : Mask) (limit d : Nat) : Prop where
  pos : 0 < d
  room : mask.pre.length + mask.mid.length + mask.post.length + d + 2 ≤ 1023
  period : mask.mid.drop d <+: mask.mid
  leading : (mask.back d).head? ≠ some '0'
  first : 10 ^ d + number (mask.front d) < limit
  second : number (mask.back d) * 10 < limit

/-- The text between the numbers is made of digits and can be moved. -/
def Mask.Confusable (mask : Mask) (limit : Nat) : Prop :=
  (∀ c ∈ mask.mid, c.isDigit = true) ∧ ∃ d, mask.Shifts limit d

/-! ### Printing the name -/

theorem sprintf_text {text : Line} (without : '%' ∉ text) (rest : Line) (numbers : List Nat) :
    sprintf (text ++ rest) numbers = (sprintf rest numbers).map fun name => text ++ name := by
  induction text with
  | nil => simp
  | cons c text ih =>
      simp only [List.mem_cons, not_or] at without
      have first : sprintf (c :: (text ++ rest)) numbers =
          (sprintf (text ++ rest) numbers).map fun name => c :: name := by
        rw [sprintf]
        · exact if_neg (Ne.symm without.1)
        · intro rest' n numbers' _ is
          exact absurd is.symm without.1
      rw [List.cons_append, first, ih without.2, Option.map_map]
      rfl

theorem fname_mask (mask : Mask) (plain : mask.tilde = false) (pid n : Nat) :
    fname mask.value pid n = some ((mask.name pid n).take 1023) := by
  have before := not_mem_ant mask.pre_ant isAnt_percent
  have between := not_mem_ant mask.mid_ant isAnt_percent
  have post := sprintf_text (not_mem_ant mask.post_ant isAnt_percent) [] []
  rw [List.append_nil] at post
  rw [fname, Mask.value, plain, Mask.fill, Mask.name, Mask.fill]
  simp only [Bool.false_eq_true, if_false, List.nil_append, List.cons_append]
  rw [sprintf_text before, sprintf, sprintf_text between, sprintf, post, sprintf]
  simp

theorem fname_fits {mask : Mask} (plain : mask.tilde = false) {pid n : Nat}
    (fits : mask.Fits pid n) : fname mask.value pid n = some (mask.name pid n) := by
  rw [fname_mask mask plain, List.take_of_length_le fits]

theorem name_length (mask : Mask) (pid n : Nat) : (mask.name pid n).length =
    mask.pre.length + (decimal pid).length + mask.mid.length + (decimal n).length +
      mask.post.length := by
  simp only [Mask.name, Mask.fill, List.length_append]
  omega

theorem decimal_length_pos (n : Nat) : 0 < (decimal n).length :=
  List.length_pos_iff.mpr (decimal_ne_nil n)

/-! ### Shifted texts -/

/-- A text that begins with itself behind `x` is made of the characters of `x`. -/
theorem all_of_period {P : Char → Prop} {x y : Line} (nonempty : x ≠ []) (all : ∀ c ∈ x, P c)
    (pre : y <+: x ++ y) : ∀ c ∈ y, P c := by
  induction is : y.length using Nat.strong_induction_on generalizing y with
  | _ length ih =>
      rcases List.prefix_or_prefix_of_prefix pre (List.prefix_append x y) with short | ⟨y', rfl⟩
      · exact fun c mem => all c (short.subset mem)
      · have less : y'.length < length := by
          have pos := List.length_pos_iff.mpr nonempty
          rw [← is, List.length_append]
          omega
        have behind := ih y'.length less ((List.prefix_append_right_inj x).mp pre) rfl
        intro c mem
        rcases List.mem_append.mp mem with mem | mem
        · exact all c mem
        · exact behind c mem

/-- A number that has digits behind `tail` does not begin with a zero. -/
theorem leading_of_append {n m : Nat} {tail : Line} (nonempty : tail ≠ [])
    (is : decimal n = tail ++ decimal m) : tail.head? ≠ some '0' := by
  intro zero
  have head : (decimal n).head? = some '0' := by
    rw [is, List.head?_append_of_ne_nil tail nonempty, zero]
  have length := congrArg List.length (decimal_leading head)
  rw [is, List.length_append, List.length_singleton] at length
  have pos := List.length_pos_iff.mpr nonempty
  have pos' := decimal_length_pos m
  omega

/-- The text between the numbers is moved behind `x`. -/
theorem exists_tail {mid x : Line} {n n' : Nat} (nonempty : x ≠ [])
    (same : mid ++ decimal n = x ++ (mid ++ decimal n')) :
    ∃ tail, decimal n = tail ++ decimal n' ∧ mid ++ tail = x ++ mid := by
  rw [← List.append_assoc] at same
  rcases List.append_eq_append_iff.mp same with ⟨tail, moved, second⟩ | ⟨tail, moved, _⟩
  · exact ⟨tail, second, moved.symm⟩
  · have length := congrArg List.length moved
    have pos := List.length_pos_iff.mpr nonempty
    simp only [List.length_append] at length
    omega

/-- The digits that are read before the moved text and behind it. -/
theorem moved_cases {mask : Mask} {x tail : Line} (moved : mask.mid ++ tail = x ++ mask.mid)
    (digits : ∀ c ∈ tail, c.isDigit = true) (leading : tail.head? ≠ some '0') :
    mask.mid.drop x.length <+: mask.mid ∧ (mask.back x.length).head? ≠ some '0' ∧
      number (mask.front x.length) ≤ number x ∧ number (mask.back x.length) ≤ number tail := by
  have inside : ∀ y, mask.mid = x ++ y → mask.mid = y ++ tail →
      mask.mid.drop x.length <+: mask.mid ∧ (mask.back x.length).head? ≠ some '0' ∧
        number (mask.front x.length) ≤ number x ∧
          number (mask.back x.length) ≤ number tail := by
    intro y before behind
    have lengths := congrArg List.length before
    have lengths' := congrArg List.length behind
    rw [List.length_append] at lengths lengths'
    have le : x.length ≤ mask.mid.length := by omega
    have front : mask.front x.length = x := by
      rw [Mask.front, if_pos le, before, List.take_left]
    have back : mask.back x.length = tail := by
      have shift : mask.mid.length - x.length = y.length := by omega
      rw [Mask.back, if_pos le, shift, behind, List.drop_left]
    rw [front, back]
    refine ⟨?_, leading, Nat.le_refl _, Nat.le_refl _⟩
    have rest : mask.mid.drop x.length = y := by
      rw [before, List.drop_left]
    rw [rest]
    exact ⟨tail, behind.symm⟩
  rcases List.append_eq_append_iff.mp moved with ⟨y, isX, isTail⟩ | ⟨y, before, behind⟩
  · cases y with
    | nil =>
        rw [List.append_nil] at isX
        exact inside [] (by rw [List.append_nil, isX]) isTail.symm
    | cons c y =>
        have length : x.length = mask.mid.length + (y.length + 1) := by
          rw [isX, List.length_append, List.length_cons]
        have beyond : ¬ x.length ≤ mask.mid.length := by omega
        have fill : x.length - mask.mid.length - 1 = y.length := by omega
        have notZero : c ≠ '0' := by
          rintro rfl
          rw [isTail] at leading
          exact leading rfl
        have least := @least_number c y
          (digits c (by rw [isTail]; exact List.mem_cons_self)) notZero
        have empty : mask.mid.drop x.length = [] := List.drop_eq_nil_of_le (by omega)
        rw [Mask.front, Mask.back, if_neg beyond, if_neg beyond, fill, empty]
        refine ⟨List.nil_prefix, by simp, ?_, ?_⟩
        · rw [isX, number_append, number_append, List.length_cons, List.length_replicate,
            List.length_cons]
          exact Nat.add_le_add_left least _
        · rw [isTail, number_append, number_append]
          exact Nat.add_le_add_right (Nat.mul_le_mul_right _ least) _
  · exact inside y before behind

/-- Two names of one text are read in two ways: the first number of the one is longer. -/
theorem confusable_of_longer {mask : Mask} {limit pid n pid' n' : Nat} {x : Line}
    (nonempty : x ≠ [])
    (longer : decimal pid' = decimal pid ++ x)
    (same : mask.mid ++ decimal n = x ++ (mask.mid ++ decimal n'))
    (small : pid' < limit) (smallN : n < limit) (fits : mask.Fits pid' n') :
    mask.Confusable limit := by
  have digitsX : ∀ c ∈ x, c.isDigit = true := fun c mem => decimal_digits pid' c (by
    rw [longer]
    exact List.mem_append_right _ mem)
  obtain ⟨tail, second, moved⟩ := exists_tail nonempty same
  have pos := List.length_pos_iff.mpr nonempty
  have someTail : tail ≠ [] := by
    have lengths := congrArg List.length moved
    rw [List.length_append, List.length_append] at lengths
    apply List.length_pos_iff.mp
    omega
  have digitsTail : ∀ c ∈ tail, c.isDigit = true := fun c mem => decimal_digits n c (by
    rw [second]
    exact List.mem_append_left _ mem)
  have digitsMid : ∀ c ∈ mask.mid, c.isDigit = true :=
    all_of_period nonempty digitsX (by rw [← moved]; exact List.prefix_append _ _)
  obtain ⟨period, leading, first, last⟩ :=
    moved_cases moved digitsTail (leading_of_append someTail second)
  have one : 1 ≤ pid := by
    by_contra not
    have zero : pid = 0 := by omega
    subst zero
    have whole := decimal_leading (n := pid') (by rw [longer]; rfl)
    rw [longer] at whole
    exact nonempty (List.cons.inj whole).2
  refine ⟨digitsMid, x.length, pos, ?_, period, leading, ?_, ?_⟩
  · have length := fits
    rw [Mask.Fits, name_length, longer, List.length_append] at length
    have posPid := decimal_length_pos pid
    have posN := decimal_length_pos n'
    omega
  · have value := congrArg number longer
    rw [number_decimal, number_append, number_decimal] at value
    have times := Nat.mul_le_mul_right (10 ^ x.length) one
    omega
  · have value := congrArg number second
    rw [number_decimal, number_append, number_decimal] at value
    have ten : 10 ^ 1 ≤ 10 ^ (decimal n').length :=
      Nat.pow_le_pow_right (by omega) (decimal_length_pos n')
    have times := Nat.mul_le_mul last ten
    omega

/-- Two owners with one name that is not cut. -/
theorem confusable_of_same {mask : Mask} {limit pid n pid' n' : Nat} (fits : mask.Fits pid n)
    (fits' : mask.Fits pid' n') (small : pid < limit ∧ n < limit)
    (small' : pid' < limit ∧ n' < limit) (same : mask.name pid n = mask.name pid' n')
    (differ : ¬ (pid = pid' ∧ n = n')) : mask.Confusable limit := by
  have middle : decimal pid ++ (mask.mid ++ decimal n) =
      decimal pid' ++ (mask.mid ++ decimal n') := by
    have inner := List.append_cancel_left same
    simp only [← List.append_assoc] at inner
    have cut := List.append_cancel_right inner
    simpa only [List.append_assoc] using cut
  rcases List.append_eq_append_iff.mp middle with ⟨x, longer, rest⟩ | ⟨x, longer, rest⟩
  · by_cases empty : x = []
    · rw [empty, List.append_nil] at longer
      rw [empty, List.nil_append] at rest
      exact absurd ⟨decimal_injective longer.symm,
        decimal_injective (List.append_cancel_left rest)⟩ differ
    · exact confusable_of_longer empty longer rest small'.1 small.2 fits'
  · by_cases empty : x = []
    · rw [empty, List.append_nil] at longer
      rw [empty, List.nil_append] at rest
      exact absurd ⟨decimal_injective longer,
        decimal_injective (List.append_cancel_left rest.symm)⟩ differ
    · exact confusable_of_longer empty longer rest small.1 small'.2 fits

/-! ### Two owners with one name -/

theorem decimal_one : decimal 1 = ['1'] := by
  simp [decimal]

theorem decimal_zero : decimal 0 = ['0'] := rfl

/-- The parts of a text of digits that can be moved. -/
theorem shifts_texts {mask : Mask} {limit d : Nat} (digits : ∀ c ∈ mask.mid, c.isDigit = true)
    (shifts : mask.Shifts limit d) :
    (mask.front d).length = d ∧ (mask.back d).length = d ∧
      (∀ c ∈ mask.front d, c.isDigit = true) ∧ (∀ c ∈ mask.back d, c.isDigit = true) ∧
        mask.mid ++ mask.back d = mask.front d ++ mask.mid := by
  by_cases le : d ≤ mask.mid.length
  · obtain ⟨tail, isTail⟩ := shifts.period
    have lengthDrop : (mask.mid.drop d).length = mask.mid.length - d := List.length_drop
    have back : mask.back d = tail := by
      rw [Mask.back, if_pos le, ← lengthDrop]
      nth_rewrite 2 [← isTail]
      exact List.drop_left
    rw [back, Mask.front, if_pos le]
    refine ⟨?_, ?_, ?_, ?_, ?_⟩
    · rw [List.length_take]
      omega
    · have length := congrArg List.length isTail
      rw [List.length_append, lengthDrop] at length
      omega
    · exact fun c mem => digits c (List.mem_of_mem_take mem)
    · intro c mem
      apply digits c
      rw [← isTail]
      exact List.mem_append_right _ mem
    · nth_rewrite 1 [← List.take_append_drop d mask.mid]
      rw [List.append_assoc, isTail]
  · have ones : ∀ c ∈ '1' :: List.replicate (d - mask.mid.length - 1) '0', c.isDigit = true := by
      intro c mem
      rcases List.mem_cons.mp mem with rfl | mem
      · rfl
      · rw [List.eq_of_mem_replicate mem]
        rfl
    rw [Mask.front, Mask.back, if_neg le, if_neg le]
    refine ⟨?_, ?_, ?_, ?_, ?_⟩
    · rw [List.length_append, List.length_cons, List.length_replicate]
      omega
    · rw [List.length_append, List.length_cons, List.length_replicate]
      omega
    · exact fun c mem => (List.mem_append.mp mem).elim (digits c) (ones c)
    · exact fun c mem => (List.mem_append.mp mem).elim (ones c) (digits c)
    · rw [List.append_assoc]

theorem exists_same {mask : Mask} {limit : Nat} (confusable : mask.Confusable limit) :
    ∃ pid n pid' n', (pid < limit ∧ n < limit) ∧ (pid' < limit ∧ n' < limit) ∧
      mask.Fits pid n ∧ mask.Fits pid' n' ∧ mask.name pid n = mask.name pid' n' ∧ pid ≠ pid' := by
  obtain ⟨digits, d, shifts⟩ := confusable
  obtain ⟨lengthFront, lengthBack, digitsFront, digitsBack, moved⟩ := shifts_texts digits shifts
  obtain ⟨pos, room, _, leading, first, second⟩ := shifts
  have someBack : mask.back d ≠ [] := by
    apply List.length_pos_iff.mp
    rw [lengthBack]
    exact pos
  have isPid : decimal (number ('1' :: mask.front d)) = '1' :: mask.front d := by
    apply decimal_number _ (List.cons_ne_nil _ _) (by simp)
    intro c mem
    rcases List.mem_cons.mp mem with rfl | mem
    · rfl
    · exact digitsFront c mem
  have isN : decimal (number (mask.back d ++ ['0'])) = mask.back d ++ ['0'] := by
    apply decimal_number _ (by simp) (by rwa [List.head?_append_of_ne_nil _ someBack])
    intro c mem
    rcases List.mem_append.mp mem with mem | mem
    · exact digitsBack c mem
    · rw [List.mem_singleton.mp mem]
      rfl
  have valuePid : number ('1' :: mask.front d) = 10 ^ d + number (mask.front d) := by
    have one : '1'.toNat - 48 = 1 := rfl
    rw [← List.singleton_append, number_append, number_singleton, lengthFront, one, Nat.one_mul]
  have valueN : number (mask.back d ++ ['0']) = number (mask.back d) * 10 := by
    rw [number_append, number_singleton]
    rfl
  have power : 0 < 10 ^ d := Nat.pow_pos (by omega)
  refine ⟨1, _, _, 0, ⟨by omega, valueN ▸ second⟩, ⟨valuePid ▸ first, by omega⟩, ?_, ?_, ?_, ?_⟩
  · rw [Mask.Fits, name_length, decimal_one, isN, List.length_append]
    simp only [List.length_singleton]
    omega
  · rw [Mask.Fits, name_length, decimal_zero, isPid, List.length_cons]
    simp only [List.length_singleton]
    omega
  · rw [Mask.name, Mask.name, Mask.fill, Mask.fill, decimal_one, decimal_zero, isPid, isN]
    congr 1
    have inner : mask.mid ++ (mask.back d ++ (['0'] ++ mask.post)) =
        mask.front d ++ (mask.mid ++ (['0'] ++ mask.post)) := by
      rw [← List.append_assoc, moved, List.append_assoc]
    simpa using inner
  · rw [valuePid]
    have ten : 10 ^ 1 ≤ 10 ^ d := Nat.pow_le_pow_right (by omega) pos
    omega

/-- A name that is cut before its second number is the name of every file of the process. -/
theorem fname_cut {mask : Mask} (plain : mask.tilde = false) {pid : Nat}
    (cut : 1023 ≤ mask.pre.length + (decimal pid).length + mask.mid.length) (n n' : Nat) :
    fname mask.value pid n = fname mask.value pid n' := by
  have before : ∀ n, (mask.name pid n).take 1023 =
      (mask.pre ++ (decimal pid ++ mask.mid)).take 1023 := by
    intro n
    have split : mask.name pid n =
        mask.pre ++ (decimal pid ++ mask.mid) ++ (decimal n ++ mask.post) := by
      simp [Mask.name, Mask.fill]
    rw [split, List.take_append_of_le_length]
    simp only [List.length_append]
    omega
  rw [fname_mask mask plain, fname_mask mask plain, before, before]

theorem exists_plain {value : Line} (accepted : Accepted swapfilename value)
    (plain : value.head? ≠ some '~') : ∃ mask : Mask, value = mask.value ∧ mask.tilde = false := by
  obtain ⟨mask, rfl⟩ := (accepted_iff value).mp accepted
  refine ⟨mask, rfl, ?_⟩
  by_contra tilde
  apply plain
  rw [Mask.value, if_pos (Bool.eq_true_of_not_eq_false tilde)]
  rfl

theorem names_differ_iff (value : Line) (accepted : Accepted swapfilename value)
    (plain : value.head? ≠ some '~') (limit : Nat) :
    ∃ mask : Mask, value = mask.value ∧
      ((∀ pid n pid' n', (pid < limit ∧ n < limit) → (pid' < limit ∧ n' < limit) →
          mask.Fits pid n → mask.Fits pid' n' →
          fname value pid n = fname value pid' n' → pid = pid' ∧ n = n') ↔
        ¬ mask.Confusable limit) ∧
      ∀ pid n n', 1023 ≤ mask.pre.length + (decimal pid).length + mask.mid.length →
        fname value pid n = fname value pid n' := by
  obtain ⟨mask, rfl, noTilde⟩ := exists_plain accepted plain
  refine ⟨mask, rfl, ?_, fun pid n n' cut => fname_cut noTilde cut n n'⟩
  constructor
  · intro differ confusable
    obtain ⟨pid, n, pid', n', small, small', fits, fits', same, ne⟩ := exists_same confusable
    have names : fname mask.value pid n = fname mask.value pid' n' := by
      rw [fname_fits noTilde fits, fname_fits noTilde fits', same]
    exact ne (differ pid n pid' n' small small' fits fits' names).1
  · intro clear pid n pid' n' small small' fits fits' names
    rw [fname_fits noTilde fits, fname_fits noTilde fits'] at names
    by_contra differ
    exact clear (confusable_of_same fits fits' small small' (Option.some.inj names) differ)

theorem accepted_swap_d_d : Accepted swapfilename "swap-%d-%d".toList := by
  apply (accepted_iff _).mpr
  exact ⟨⟨false, "swap-".toList, "-".toList, [], by decide, by simp [isAnt], by simp [isAnt],
    by simp⟩, rfl⟩

theorem names_differ_separated :
    ∃ mask : Mask, "swap-%d-%d".toList = mask.value ∧
      ((∀ pid n pid' n', (pid < 2 ^ 31 ∧ n < 2 ^ 31) → (pid' < 2 ^ 31 ∧ n' < 2 ^ 31) →
          mask.Fits pid n → mask.Fits pid' n' →
          fname "swap-%d-%d".toList pid n = fname "swap-%d-%d".toList pid' n' →
            pid = pid' ∧ n = n') ↔
        ¬ mask.Confusable (2 ^ 31)) ∧
      ∀ pid n n', 1023 ≤ mask.pre.length + (decimal pid).length + mask.mid.length →
        fname "swap-%d-%d".toList pid n = fname "swap-%d-%d".toList pid n' :=
  names_differ_iff _ accepted_swap_d_d (by decide) _

/-- Process 1 with file 23 and process 12 with file 3 open `swap123`. -/
theorem names_agree_adjacent :
    ¬ ∀ value, Accepted swapfilename value → value.head? ≠ some '~' → ∀ pid n pid' n',
      fname value pid n = fname value pid' n' → pid = pid' ∧ n = n' := by
  intro differ
  have accepted : Accepted swapfilename "swap%d%d".toList := by
    apply (accepted_iff _).mpr
    exact ⟨⟨false, "swap".toList, [], [], by decide, by simp [isAnt], by simp, by simp⟩, rfl⟩
  have same : fname "swap%d%d".toList 1 23 = fname "swap%d%d".toList 12 3 := by
    simp [fname, sprintf, decimal]
  have both := differ "swap%d%d".toList accepted (by decide) 1 23 12 3 same
  exact absurd both.1 (by decide)

end Rambrain.RegexMatcher
