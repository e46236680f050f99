import Mathlib

/-!
Conversion specifications of `printf`, and the numbers that `%d` prints.

`conversions` lists the specifications of a format. Each takes its own `%` (`count_conversions`), so
a format whose specifications are all `%d` has no other `%`. `decimal` is what `%d` prints of a
number that is not negative, and `number` reads it back (`number_decimal`); every text of digits
without a leading zero is printed of its number (`decimal_number`).
-/

namespace Rambrain.Lib.Printf

/-! ### Conversion specifications -/

/-- The flags, with the apostrophe of POSIX and the `I` of the GNU library. -/
def isFlag (c : Char) : Bool :=
  c = '-' ∨ c = '+' ∨ c = ' ' ∨ c = '#' ∨ c = '0' ∨ c = Char.ofNat 39 ∨ c = 'I'

/-- The length of a number, or of an asterisk. -/
def fieldLength (text : List Char) : Nat :=
  if text.head? = some '*' then 1 else (text.takeWhile Char.isDigit).length

def precisionLength (text : List Char) : Nat :=
  if text.head? = some '.' then 1 + fieldLength (text.drop 1) else 0

/-- The length of `hh`, `h`, `ll`, `l`, `q`, `L`, `j`, `z` or `t`. -/
def modifierLength (text : List Char) : Nat :=
  if text.take 2 = ['h', 'h'] ∨ text.take 2 = ['l', 'l'] then 2
  else if text.head?.any fun c => c ∈ ['h', 'l', 'q', 'L', 'j', 'z', 't'] then 1
  else 0

/-- The length of the conversion specification behind a `%`. -/
def specificationLength (text : List Char) : Nat :=
  let flags := (text.takeWhile isFlag).length
  let width := flags + fieldLength (text.drop flags)
  let precision := width + precisionLength (text.drop width)
  let modifier := precision + modifierLength (text.drop precision)
  modifier + 1

/-- The specifications of a format; the first argument says how many characters to skip. -/
def conversionsFrom : Nat → List Char → List (List Char)
  | _, [] => []
  | skip + 1, _ :: rest => conversionsFrom skip rest
  | 0, c :: rest =>
      if c = '%' then
        ('%' :: rest.take (specificationLength rest)) ::
          conversionsFrom (specificationLength rest) rest
      else conversionsFrom 0 rest

def conversions (format : List Char) : List (List Char) := conversionsFrom 0 format

theorem conversionsFrom_skip (skip : Nat) (text : List Char) :
    conversionsFrom skip text = conversions (text.drop skip) := by
  induction text generalizing skip with
  | nil => cases skip <;> rfl
  | cons c rest ih =>
      cases skip with
      | zero => rfl
      | succ skip => exact ih skip

theorem conversions_cons_percent (rest : List Char) :
    conversions ('%' :: rest) = ('%' :: rest.take (specificationLength rest)) ::
      conversions (rest.drop (specificationLength rest)) := by
  rw [conversions, conversionsFrom, if_pos rfl, conversionsFrom_skip]

theorem conversions_cons {c : Char} (ne : c ≠ '%') (rest : List Char) :
    conversions (c :: rest) = conversions rest := by
  rw [conversions, conversionsFrom, if_neg ne]
  rfl

theorem conversions_append {text : List Char} (without : '%' ∉ text) (rest : List Char) :
    conversions (text ++ rest) = conversions rest := by
  induction text with
  | nil => rfl
  | cons c text ih =>
      simp only [List.mem_cons, not_or] at without
      rw [List.cons_append, conversions_cons (Ne.symm without.1), ih without.2]

theorem conversions_eq_nil {text : List Char} (without : '%' ∉ text) : conversions text = [] := by
  have whole := conversions_append without []
  rwa [List.append_nil] at whole

theorem conversions_percent_d (rest : List Char) :
    conversions ('%' :: 'd' :: rest) = ['%', 'd'] :: conversions rest := by
  have one : specificationLength ('d' :: rest) = 1 := by
    have flags : ('d' :: rest).takeWhile isFlag = [] :=
      List.takeWhile_cons_of_neg (by decide)
    have width : fieldLength ('d' :: rest) = 0 := by
      rw [fieldLength, if_neg (by simp), List.takeWhile_cons_of_neg (by decide)]
      rfl
    have precision : precisionLength ('d' :: rest) = 0 := if_neg (by simp)
    have modifier : modifierLength ('d' :: rest) = 0 := by
      rw [modifierLength, if_neg (by simp [List.take]), if_neg (by simp)]
    simp [specificationLength, flags, width, precision, modifier]
  rw [conversions_cons_percent, one]
  rfl

/-- Every `%` of a format is in one of its specifications. -/
theorem count_conversions (format : List Char) :
    format.count '%' = ((conversions format).map fun spec => spec.count '%').sum := by
  induction is : format.length using Nat.strong_induction_on generalizing format with
  | _ length ih =>
      cases format with
      | nil => rfl
      | cons c rest =>
          by_cases percent : c = '%'
          · subst percent
            have behind := ih (rest.drop (specificationLength rest)).length (by
              rw [← is, List.length_drop, List.length_cons]
              omega) (rest.drop (specificationLength rest)) rfl
            rw [conversions_cons_percent, List.map_cons, List.sum_cons, ← behind,
              ← List.count_append, List.cons_append, List.take_append_drop]
          · rw [conversions_cons percent, List.count_cons_of_ne percent]
            exact ih rest.length (by rw [← is]; exact Nat.lt_succ_self _) rest rfl

/-! ### `%d` -/

/-- A number that is not negative, as `%d` prints it. -/
def decimal (n : Nat) : List Char :=
  if n = 0 then ['0'] else (Nat.digits 10 n).reverse.map Nat.digitChar

/-- `sprintf` of a format whose specifications are all `%d`; `none` for another one, or when there
are too few numbers. -/
def sprintf : List Char → List Nat → Option (List Char)
  | [], _ => some []
  | '%' :: 'd' :: rest, n :: numbers => (sprintf rest numbers).map fun text => decimal n ++ text
  | c :: rest, numbers =>
      if c = '%' then none else (sprintf rest numbers).map fun text => c :: text

theorem digitChar_digit : ∀ {d : Nat}, d < 10 → (Nat.digitChar d).isDigit = true := by decide

theorem digitChar_val : ∀ {d : Nat}, d < 10 → (Nat.digitChar d).toNat - 48 = d := by decide

theorem digitChar_of_isDigit {c : Char} (digit : c.isDigit = true) :
    c.toNat - 48 < 10 ∧ Nat.digitChar (c.toNat - 48) = c := by
  simp only [Char.isDigit, Bool.and_eq_true, decide_eq_true_eq] at digit
  obtain ⟨least, most⟩ := digit
  have lo : 48 ≤ c.toNat := least
  have hi : c.toNat ≤ 57 := most
  refine ⟨by omega, ?_⟩
  have all : ∀ n, 48 ≤ n → n ≤ 57 → Nat.digitChar (n - 48) = Char.ofNat n := by decide
  rw [all c.toNat lo hi, Char.ofNat_toNat]

theorem decimal_digits (n : Nat) : ∀ c ∈ decimal n, c.isDigit = true := by
  intro c mem
  unfold decimal at mem
  split at mem
  · rw [List.mem_singleton] at mem
    rw [mem]
    rfl
  · obtain ⟨d, memD, rfl⟩ := List.mem_map.mp mem
    exact digitChar_digit (Nat.digits_lt_base (by decide) (List.mem_reverse.mp memD))

/-- The number that a text of digits stands for. -/
def number (text : List Char) : Nat := Nat.ofDigits 10 (text.map fun c => c.toNat - 48).reverse

theorem number_append (text rest : List Char) :
    number (text ++ rest) = number text * 10 ^ rest.length + number rest := by
  rw [number, List.map_append, List.reverse_append, Nat.ofDigits_append, List.length_reverse,
    List.length_map, Nat.mul_comm, Nat.add_comm]
  rfl

theorem number_singleton (c : Char) : number [c] = c.toNat - 48 := by
  simp [number]

theorem number_decimal (n : Nat) : number (decimal n) = n := by
  unfold decimal
  split
  · next zero =>
      rw [zero]
      rfl
  · have values : (((Nat.digits 10 n).reverse.map Nat.digitChar).map fun c => c.toNat - 48) =
        (Nat.digits 10 n).reverse := by
      rw [List.map_map]
      refine (List.map_congr_left fun d mem => ?_).trans (List.map_id _)
      exact digitChar_val (Nat.digits_lt_base (by decide) (List.mem_reverse.mp mem))
    rw [number, values, List.reverse_reverse, Nat.ofDigits_digits]

theorem decimal_injective {m n : Nat} (same : decimal m = decimal n) : m = n := by
  have numbers := congrArg number same
  rwa [number_decimal, number_decimal] at numbers

/-- Digits without a leading zero are printed of the number they stand for. -/
theorem decimal_number {text : List Char} (digits : ∀ c ∈ text, c.isDigit = true)
    (nonempty : text ≠ []) (leading : text.head? ≠ some '0') : decimal (number text) = text := by
  obtain ⟨values, isValues⟩ : ∃ values, values = (text.map fun c => c.toNat - 48).reverse :=
    ⟨_, rfl⟩
  have small : ∀ d ∈ values, d < 10 := by
    intro d mem
    rw [isValues, List.mem_reverse] at mem
    obtain ⟨c, memC, rfl⟩ := List.mem_map.mp mem
    exact (digitChar_of_isDigit (digits c memC)).1
  have last : ∀ ne : values ≠ [], values.getLast ne ≠ 0 := by
    intro ne zero
    obtain ⟨c, rest, rfl⟩ := List.exists_cons_of_ne_nil nonempty
    have isLast : values.getLast ne = c.toNat - 48 := by
      subst isValues
      simp
    rw [isLast] at zero
    have back := (digitChar_of_isDigit (digits c List.mem_cons_self)).2
    rw [zero] at back
    exact leading (by rw [← back]; rfl)
  have read := Nat.digits_ofDigits 10 (by decide) values small last
  have ne : Nat.ofDigits 10 values ≠ 0 := by
    intro zero
    rw [zero, Nat.digits_zero] at read
    rw [← read, eq_comm, List.reverse_eq_nil_iff, List.map_eq_nil_iff] at isValues
    exact nonempty isValues
  rw [number, ← isValues, decimal, if_neg ne, read, isValues, List.reverse_reverse, List.map_map]
  refine (List.map_congr_left fun c mem => ?_).trans (List.map_id _)
  exact (digitChar_of_isDigit (digits c mem)).2

theorem number_zeros (k : Nat) : number (List.replicate k '0') = 0 := by
  induction k with
  | zero => rfl
  | succ k ih =>
      rw [List.replicate_succ, ← List.singleton_append, number_append, number_singleton, ih]
      simp

/-- A one and zeros are the least number of their length. -/
theorem least_number {c : Char} {text : List Char} (digit : c.isDigit = true) (leading : c ≠ '0') :
    number ('1' :: List.replicate text.length '0') ≤ number (c :: text) := by
  rw [← List.singleton_append, number_append, number_zeros, number_singleton, List.length_replicate,
    ← @List.singleton_append _ c, number_append, number_singleton]
  have pos : 1 ≤ c.toNat - 48 := by
    by_contra not
    have zero : c.toNat - 48 = 0 := by omega
    have back := (digitChar_of_isDigit digit).2
    rw [zero] at back
    exact leading back.symm
  have times := Nat.mul_le_mul_right (10 ^ text.length) pos
  have one : '1'.toNat - 48 = 1 := rfl
  rw [one, Nat.add_zero]
  exact times.trans (Nat.le_add_right _ _)

theorem decimal_ne_nil (n : Nat) : decimal n ≠ [] := by
  unfold decimal
  split
  · exact List.cons_ne_nil _ _
  · next ne =>
      rw [Ne, List.map_eq_nil_iff, List.reverse_eq_nil_iff, Nat.digits_eq_nil_iff_eq_zero]
      exact ne

/-- Only `0` begins with a zero. -/
theorem decimal_leading {n : Nat} (leading : (decimal n).head? = some '0') : decimal n = ['0'] := by
  by_cases zero : n = 0
  · rw [zero]
    rfl
  · exfalso
    rw [decimal, if_neg zero] at leading
    have ne : Nat.digits 10 n ≠ [] := Nat.digits_ne_nil_iff_ne_zero.mpr zero
    have head : ((Nat.digits 10 n).reverse.map Nat.digitChar).head? =
        some (Nat.digitChar ((Nat.digits 10 n).getLast ne)) := by
      rw [List.head?_map, List.head?_reverse, List.getLast?_eq_getLast_of_ne_nil ne]
      rfl
    rw [head] at leading
    have small := Nat.digits_lt_base (b := 10) (by decide) (List.getLast_mem ne)
    have value := digitChar_val small
    rw [Option.some.inj leading] at value
    exact Nat.getLast_digit_ne_zero 10 zero value.symm

end Rambrain.Lib.Printf
