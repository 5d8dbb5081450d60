import Schemata.Proofs.JsonTexts

/-! The numbers that are printed are numbers of JSON: whole ones, and all floating-point numbers that are finite. What
has to be shown of the latter is that no zero is printed in front of other digits. -/

namespace Schemata.Json

theorem toDigits_digits (n : Nat) : ∀ c ∈ Nat.toDigits 10 n, c.isDigit = true :=
  fun _ member => Nat.isDigit_of_mem_toDigits (by decide) (by decide) member

/-- The first digit of a number is no zero. -/
theorem toDigits_leading {n : Nat} (positive : 0 < n) :
    ∃ first rest, Nat.toDigits 10 n = first :: rest ∧ first ≠ '0' := by
  induction n using Nat.strongRecOn with
  | ind n ih =>
    by_cases small : n < 10
    · refine ⟨n.digitChar, [], Nat.toDigits_of_lt_base small, ?_⟩
      have single : ∀ digit < 10, 0 < digit → Nat.digitChar digit ≠ '0' := by decide
      exact single n small positive
    · obtain ⟨first, rest, own, noZero⟩ := ih (n / 10) (by omega) (by omega)
      rw [Nat.toDigits_of_base_le (by decide) (by omega), own]
      exact ⟨first, _, rfl, noZero⟩

def Ends (rest : List Char) : Prop := ∀ c ∈ rest.head?, c.isDigit = false

theorem span_digits {digits rest : List Char} (all : ∀ c ∈ digits, c.isDigit = true) (ends : Ends rest) :
    (digits ++ rest).takeWhile Char.isDigit = digits ∧ (digits ++ rest).dropWhile Char.isDigit = rest := by
  rw [List.takeWhile_append_of_pos all, List.dropWhile_append_of_pos all]
  cases rest with
  | nil => simp
  | cons c rest => simp [ends c rfl]

theorem isDigits_of_forall {text : List Char} (all : ∀ c ∈ text, c.isDigit = true) (given : text ≠ []) :
    isDigits text = true := by
  rw [isDigits, Bool.and_eq_true]
  exact ⟨by simpa using given, List.all_eq_true.mpr all⟩

theorem isFraction_point {digits rest : List Char} (all : ∀ c ∈ digits, c.isDigit = true) (given : digits ≠ [])
    (ends : Ends rest) (exponent : isExponent rest = true) : isFraction ('.' :: (digits ++ rest)) = true := by
  obtain ⟨taken, left⟩ := span_digits all ends
  show (isDigits ((digits ++ rest).takeWhile Char.isDigit) &&
    isExponent ((digits ++ rest).dropWhile Char.isDigit)) = true
  rw [taken, left, isDigits_of_forall all given, exponent]
  rfl

theorem isFraction_end {digits : List Char} (all : ∀ c ∈ digits, c.isDigit = true) (given : digits ≠ []) :
    isFraction ('.' :: digits) = true := by
  have ends : Ends [] := nofun
  simpa using isFraction_point all given ends rfl

theorem isUnsigned_digits {first : Char} {digits rest : List Char} (digit : first.isDigit = true) (noZero : first ≠ '0')
    (all : ∀ c ∈ digits, c.isDigit = true) (ends : Ends rest) (fraction : isFraction rest = true) :
    isUnsigned (first :: (digits ++ rest)) = true := by
  unfold isUnsigned
  split
  next none => cases none
  next same => cases same; exact absurd rfl noZero
  next same =>
    cases same
    rw [digit, (span_digits all ends).2, fraction]
    rfl

theorem isUnsigned_single {first : Char} {rest : List Char} (digit : first.isDigit = true) (ends : Ends rest)
    (fraction : isFraction rest = true) : isUnsigned (first :: rest) = true := by
  by_cases zero : first = '0'
  · subst zero
    exact fraction
  · have whole : isUnsigned (first :: ([] ++ rest)) = true := isUnsigned_digits digit zero nofun ends fraction
    exact whole

theorem isNumber_sign {text : List Char} (unsigned : isUnsigned text = true) (negative : Bool) :
    isNumber ((if negative then ['-'] else []) ++ text) = true := by
  cases negative with
  | true => exact unsigned
  | false =>
    unfold isNumber
    split
    next same =>
      simp only [Bool.false_eq_true, if_false, List.nil_append] at same
      rw [same] at unsigned
      cases unsigned
    next => exact unsigned

theorem isUnsigned_toDigits (n : Nat) : isUnsigned (Nat.toDigits 10 n) = true := by
  cases n with
  | zero => rfl
  | succ n =>
    obtain ⟨first, rest, own, noZero⟩ := toDigits_leading (Nat.succ_pos n)
    have all := toDigits_digits (n + 1)
    rw [own, List.forall_mem_cons] at all
    rw [own, ← List.append_nil rest]
    exact isUnsigned_digits all.1 noZero all.2 nofun rfl

theorem isNumber_int (value : Int) : isNumber (toString value).toList = true := by
  cases value with
  | ofNat n =>
    have own : (toString (Int.ofNat n)).toList = Nat.toDigits 10 n := Nat.toList_repr
    rw [own]
    exact isNumber_sign (isUnsigned_toDigits n) false
  | negSucc n =>
    have own : (toString (Int.negSucc n)).toList = '-' :: Nat.toDigits 10 (n + 1) := by
      show ("-" ++ Nat.repr (n + 1)).toList = _
      rw [String.toList_append, Nat.toList_repr]
      rfl
    rw [own]
    exact isNumber_sign (isUnsigned_toDigits (n + 1)) true

end Schemata.Json

namespace Schemata.Double

open Json

theorem search_le (below : Int → Bool) (steps : Nat) (power : Int) :
    decimalPoint.search below steps power ≤ power + steps := by
  induction steps generalizing power with
  | zero => simp [decimalPoint.search]
  | succ steps ih =>
    rw [decimalPoint.search]
    have := ih (power + 1)
    split <;> omega

theorem decimalPoint_le (num den : Nat) :
    decimalPoint num den ≤ ((num.log2 : Int) - den.log2) * 30103 / 100000 + 3 := by
  unfold decimalPoint
  dsimp only
  refine Int.le_trans (search_le _ 4 _) ?_
  omega

/-- Digits that read back as a number that is not zero are not zero. -/
theorem digitsWithin_pos {negative : Bool} {significand : Nat} {exponent point : Int} {num den count digits : Nat}
    (positive : 0 < significand)
    (found : digitsWithin (.finite negative significand exponent) num den point count = some digits) : 0 < digits := by
  have reads {low : Nat} {power : Int} (own : ofDecimal false low power = .finite negative significand exponent) :
      0 < low := by
    refine Nat.pos_of_ne_zero fun none => ?_
    rw [none, ofDecimal, if_pos rfl, zero] at own
    cases own
    exact absurd positive (Nat.lt_irrefl 0)
  unfold digitsWithin at found
  dsimp only at found
  split at found
  · cases found
  next low _ =>
    cases found
    exact reads (of_decide_eq_true low)
  next _ high =>
    cases found
    exact reads (of_decide_eq_true high)
  next low high =>
    have lower := reads (of_decide_eq_true low)
    have upper := reads (of_decide_eq_true high)
    split at found
    · cases found; exact lower
    split at found
    · cases found; exact upper
    · cases found
      split
      · exact lower
      · exact upper

/-- The digits of the last resort are not zero where they would be written before the point. -/
theorem neighbours_pos {num den : Nat} (positive : 0 < num) (given : 0 < den) {point : Int} (low : 2 ≤ point)
    (high : point ≤ 16) (bound : point ≤ ((num.log2 : Int) - den.log2) * 30103 / 100000 + 3) :
    0 < (neighbours num den (point - 18)).1.1 := by
  have least : 2 ^ num.log2 ≤ num := Nat.log2_self_le (Nat.ne_of_gt positive)
  have most : den < 2 ^ (den.log2 + 1) := Nat.lt_log2_self
  have enough : den ≤ num * Nat.pow 10 (-(point - 18)).toNat := by
    by_cases small : num.log2 < den.log2
    · obtain rfl : point = 2 := by omega
      have close : 2 ^ (den.log2 + 1) ≤ 2 ^ (num.log2 + 4) := Nat.pow_le_pow_right (by decide) (by omega)
      rw [Nat.pow_add _ _ 4] at close
      show den ≤ num * 10 ^ 16
      omega
    · have close : 2 ^ (den.log2 + 1) ≤ 2 ^ (num.log2 + 1) := Nat.pow_le_pow_right (by decide) (by omega)
      rw [Nat.pow_succ _ num.log2] at close
      have ten : 10 ^ 1 ≤ 10 ^ (-(point - 18)).toNat := Nat.pow_le_pow_right (by decide) (by omega)
      have more : num * 10 ≤ num * 10 ^ (-(point - 18)).toNat := Nat.mul_le_mul_left num ten
      show den ≤ num * 10 ^ (-(point - 18)).toNat
      omega
  unfold neighbours
  rw [if_neg (by omega)]
  exact Nat.div_pos enough given

theorem magnitude_pos {significand : Nat} (positive : 0 < significand) (exponent : Int) :
    0 < (magnitude significand exponent).1 ∧ 0 < (magnitude significand exponent).2 := by
  unfold magnitude
  split
  · exact ⟨Nat.mul_pos positive (Nat.pow_pos (by decide)), Nat.one_pos⟩
  · exact ⟨positive, Nat.pow_pos (by decide)⟩

/-- The digits that are written before the point are not zero. -/
theorem shortest_pos {significand : Nat} (positive : 0 < significand) (exponent : Int) {digits : Nat} {point : Int}
    (found : shortest significand exponent = (digits, point)) (low : 2 ≤ point) (high : point ≤ 16) : 0 < digits := by
  obtain ⟨num, den⟩ := magnitude_pos positive exponent
  unfold shortest at found
  dsimp only at found
  generalize magnitude significand exponent = ratio at *
  have search (steps count : Nat) (whole : steps + count = 18)
      (found : shortest.search ratio.1 ratio.2 (decimalPoint ratio.1 ratio.2) (.finite false significand exponent) steps
          count =
        (digits, point)) : 0 < digits := by
    induction steps generalizing count with
    | zero =>
      obtain rfl : count = 18 := by omega
      cases found
      exact neighbours_pos num den low high (decimalPoint_le ..)
    | succ steps ih =>
      rw [shortest.search] at found
      split at found
      next own =>
        split at found
        · cases found; exact Nat.one_pos
        · cases found; exact digitsWithin_pos positive own
      next => exact ih (count + 1) (by omega) found
  exact search 17 1 rfl found

theorem ends_cons {c : Char} (noDigit : c.isDigit = false) (rest : List Char) : Ends (c :: rest) := by
  intro first member
  cases member
  exact noDigit

theorem toString_toList (n : Nat) : (toString n).toList = Nat.toDigits 10 n := Nat.toList_repr

theorem isExponent_exponentText (power : Int) : isExponent ('e' :: (exponentText power).toList) = true := by
  obtain ⟨sign, digits, own, signed, all, given⟩ : ∃ (sign : Char) (digits : List Char),
      (exponentText power).toList = sign :: digits ∧ (sign = '-' ∨ sign = '+') ∧ (∀ c ∈ digits, c.isDigit = true) ∧
        digits ≠ [] := by
    have all := toDigits_digits power.natAbs
    refine ⟨if power < 0 then '-' else '+', (exponentText power).toList.tail, ?_, ?_, ?_⟩
    · unfold exponentText
      split <;> simp
    · split <;> simp
    · unfold exponentText
      rw [← toString_toList] at all
      dsimp only
      split <;> split <;> simp_all
  have digits : isDigits (dropSign (sign :: digits)) = true := by
    rcases signed with rfl | rfl
    · exact isDigits_of_forall all given
    · exact isDigits_of_forall all given
  rw [own, isExponent, digits]
  rfl

private theorem isDigit_zeros (count : Nat) : ∀ c ∈ List.replicate count '0', c.isDigit = true := by
  intro c member
  cases List.eq_of_mem_replicate member
  rfl

private theorem ends_point (rest : List Char) : Ends ('.' :: rest) := ends_cons rfl rest

/-- All digits stand behind the point. -/
private theorem isUnsigned_behind (digits zeros : Nat) :
    isUnsigned ('0' :: '.' :: (List.replicate zeros '0' ++ Nat.toDigits 10 digits)) = true := by
  have all : ∀ c ∈ List.replicate zeros '0' ++ Nat.toDigits 10 digits, c.isDigit = true := by
    intro c member
    rcases List.mem_append.mp member with zero | own
    · exact isDigit_zeros zeros c zero
    · exact toDigits_digits digits c own
  exact isUnsigned_single rfl (ends_point _) (isFraction_end all (by simp))

/-- The digits are filled up with zeros until the point. -/
private theorem isUnsigned_before {digits : Nat} (positive : 0 < digits) (zeros : Nat) :
    isUnsigned (Nat.toDigits 10 digits ++ (List.replicate zeros '0' ++ ['.', '0'])) = true := by
  have all := toDigits_digits digits
  obtain ⟨first, rest, own, noZero⟩ := toDigits_leading positive
  rw [own, List.forall_mem_cons] at all
  have tail : ∀ c ∈ rest ++ List.replicate zeros '0', c.isDigit = true :=
    fun c member => (List.mem_append.mp member).elim (all.2 c) (isDigit_zeros zeros c)
  have whole := isUnsigned_digits all.1 noZero tail (ends_point ['0']) (by decide)
  simpa [own] using whole

/-- The point stands between two digits. -/
private theorem isUnsigned_inside {digits : Nat} (positive : 0 < digits) {point : Nat} (some : 0 < point)
    (inside : point < (Nat.toDigits 10 digits).length) :
    isUnsigned ((Nat.toDigits 10 digits).take point ++ '.' :: (Nat.toDigits 10 digits).drop point) = true := by
  have all := toDigits_digits digits
  obtain ⟨first, rest, own, noZero⟩ := toDigits_leading positive
  rw [own, List.forall_mem_cons] at all
  obtain ⟨front, rfl⟩ : ∃ front, point = front + 1 := Nat.exists_eq_add_one_of_ne_zero (by omega)
  have behind : rest.drop front ≠ [] := by
    rw [own, List.length_cons] at inside
    simpa using inside
  have fraction := isFraction_end (fun c member => all.2 c (List.mem_of_mem_drop member)) behind
  have taken : ∀ c ∈ rest.take front, c.isDigit = true := fun c member => all.2 c (List.mem_of_mem_take member)
  have whole := isUnsigned_digits all.1 noZero taken (ends_point _) fraction
  simpa [own] using whole

/-- Digits around a point, and behind them maybe an exponent. -/
theorem isUnsigned_layOut {digits : Nat} {point : Int} (leading : 2 ≤ point → point ≤ 16 → 0 < digits) :
    isUnsigned (layOut (toString digits) point).toList = true := by
  unfold layOut
  dsimp only
  rw [← String.length_toList, toString_toList]
  split
  next positional =>
    split
    next => simpa [toString_toList] using isUnsigned_behind digits (-point).toNat
    next before =>
      by_cases none : digits = 0
      · -- a single zero before the point
        subst none
        obtain rfl : point = 1 := by
          have few : ¬ 2 ≤ point := fun two => absurd (leading two positional.2) (Nat.lt_irrefl 0)
          omega
        decide
      have positive := Nat.pos_of_ne_zero none
      split
      next => simpa [toString_toList] using isUnsigned_before positive (point.toNat - (Nat.toDigits 10 digits).length)
      next inside =>
        simpa [toString_toList] using isUnsigned_inside positive (by omega : 0 < point.toNat) (by omega)
  next =>
    have all := toDigits_digits digits
    obtain ⟨first, rest, own⟩ := List.exists_cons_of_ne_nil (Nat.toDigits_ne_nil : Nat.toDigits 10 digits ≠ [])
    rw [own, List.forall_mem_cons] at all
    have exponent := isExponent_exponentText (point - 1)
    have ends : Ends ('e' :: (exponentText (point - 1)).toList) := ends_cons rfl _
    by_cases single : rest = []
    · have whole := isUnsigned_single all.1 ends exponent
      simpa [own, single] using whole
    · have whole := isUnsigned_single all.1 (ends_point _) (isFraction_point all.2 single ends exponent)
      simpa [own, single] using whole

def isFinite : Double → Bool
  | .finite .. => true
  | _ => false

/-- Exactly the finite numbers are printed as numbers. -/
theorem isNumber_textWith (value : Double) : isNumber (value.textWith "NaN" "Infinity").toList = value.isFinite := by
  cases value with
  | nan payload =>
    show isNumber "NaN".toList = false
    decide
  | infinite negative =>
    cases negative with
    | true => exact (by decide : isNumber "-Infinity".toList = false)
    | false => exact (by decide : isNumber "Infinity".toList = false)
  | finite negative significand exponent =>
    refine Eq.trans ?_ (rfl : true = _)
    have signed {text : String} (unsigned : isUnsigned text.toList = true) :
        isNumber ((if negative then "-" else "") ++ text).toList = true := by
      have own := isNumber_sign unsigned negative
      cases negative <;> simpa using own
    rw [textWith]
    dsimp only
    split
    next => exact signed (show isUnsigned "0.0".toList = true by decide)
    next positive =>
      cases found : shortest significand exponent with
      | mk digits point => exact signed (isUnsigned_layOut (shortest_pos (Nat.pos_of_ne_zero positive) exponent found))

end Schemata.Double
