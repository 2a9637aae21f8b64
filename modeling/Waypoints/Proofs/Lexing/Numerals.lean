import Waypoints.Number.Text
import Waypoints.Proofs.Lexing.Spelled
import Waypoints.Proofs.Number.Decimals
/-!
# The numerals of numbers

The text of a finite number is a numeral without an exponent, after a minus sign if the number has
one (`exists_numeral`). The numeral shows the digits of the shortest decimal with the point in its
place, so that it is read as the magnitude of the number.
-/

set_option autoImplicit false
set_option relaxedAutoImplicit false

namespace Waypoints

/-! ### Words of digits -/

namespace Decimal

theorem natOfDigits_append (v w : List Char) :
    natOfDigits (v ++ w) = natOfDigits v * 10 ^ w.length + natOfDigits w := by
  induction w using List.reverseRecOn with
  | nil => simp [natOfDigits, ofDigits]
  | append_singleton w c ih =>
    have hlast (u : List Char) : natOfDigits (u ++ [c]) = 10 * natOfDigits u + digitValue c := by
      simp [natOfDigits, ofDigits]
    rw [← List.append_assoc, hlast, hlast, ih, List.length_append, List.length_singleton,
      Nat.pow_succ]
    ring

theorem natOfDigits_zeros (k : Nat) : natOfDigits (Number.zeros k) = 0 := by
  induction k with
  | zero => rfl
  | succ k ih => exact ih

theorem natOfDigits_zeros_append (k : Nat) (w : List Char) :
    natOfDigits (Number.zeros k ++ w) = natOfDigits w := by
  rw [natOfDigits_append, natOfDigits_zeros, Nat.zero_mul, Nat.zero_add]

theorem natOfDigits_toDigits (n : Nat) : natOfDigits (Nat.toDigits 10 n) = n :=
  Nat.ofDigitChars_toDigits (by decide) (by decide)

end Decimal

namespace Number

theorem isDigits_zeros (k : Nat) : IsDigits (zeros k) := by
  intro c hc
  rw [List.eq_of_mem_replicate hc]
  rfl

theorem isDigits_toDigits (n : Nat) : IsDigits (Nat.toDigits 10 n) :=
  fun _ hc ↦ Nat.isDigit_of_mem_toDigits (by decide) (by decide) hc

/-- What is dropped from a word are zeros. -/
theorem exists_eq_trimZeros_append (word : List Char) : ∃ k, word = trimZeros word ++ zeros k := by
  have hzeros : word.reverse.takeWhile (· == '0') =
      zeros (word.reverse.takeWhile (· == '0')).length := by
    refine List.eq_replicate_of_mem fun c hc ↦ ?_
    exact beq_iff_eq.1 (List.all_eq_true.1 List.all_takeWhile c hc)
  refine ⟨(word.reverse.takeWhile (· == '0')).length, ?_⟩
  have hsplit := congrArg List.reverse
    (List.takeWhile_append_dropWhile (p := (· == '0')) (l := word.reverse))
  rw [List.reverse_append, List.reverse_reverse, hzeros] at hsplit
  rw [zeros, List.reverse_replicate] at hsplit
  exact hsplit.symm

/-! ### The digits of a decimal -/

/-- The value that digits show. -/
def Digits.toRat (d : Digits) : ℚ :=
  Decimal.natOfDigits d.digits * 10 ^ (d.place - d.digits.length)

namespace Digits

/-- The digits of a decimal are those of its count without some zeros. -/
theorem exists_ofDecimal (d : Decimal) :
    ∃ k : Nat, IsDigits (ofDecimal d).digits ∧
      d.digits = Decimal.natOfDigits (ofDecimal d).digits * 10 ^ k ∧
      (ofDecimal d).place = (ofDecimal d).digits.length + k + d.exponent := by
  obtain ⟨k, hk⟩ := exists_eq_trimZeros_append (Nat.toDigits 10 d.digits)
  have hdigits := isDigits_toDigits d.digits
  have hvalue := Decimal.natOfDigits_toDigits d.digits
  have hlength := congrArg List.length hk
  rw [hk] at hdigits hvalue
  rw [Decimal.natOfDigits_append, Decimal.natOfDigits_zeros, Nat.add_zero, zeros,
    List.length_replicate] at hvalue
  rw [List.length_append, zeros, List.length_replicate] at hlength
  refine ⟨k, (List.forall_mem_append.1 hdigits).1, hvalue.symm, ?_⟩
  rw [ofDecimal]
  dsimp only
  rw [hlength, Nat.cast_add]

theorem toRat_ofDecimal (d : Decimal) : (ofDecimal d).toRat = d.toRat := by
  obtain ⟨k, -, hvalue, hplace⟩ := exists_ofDecimal d
  generalize ofDecimal d = w at hvalue hplace
  have hpower : (w.digits.length : Int) + k + d.exponent - w.digits.length = k + d.exponent := by
    ring
  rw [toRat, Decimal.toRat, hvalue, hplace, hpower, zpow_add₀ (by norm_num), zpow_natCast]
  push_cast
  ring

theorem ofDecimal_ne_nil {d : Decimal} (hd : 0 < d.digits) : (ofDecimal d).digits ≠ [] := by
  obtain ⟨k, -, hvalue, -⟩ := exists_ofDecimal d
  intro hnil
  rw [hnil, show Decimal.natOfDigits [] = 0 from rfl, Nat.zero_mul] at hvalue
  omega

end Digits

end Number

/-! ### Positional notation -/

namespace NumberWord

/-- The decimal that a numeral shows. -/
def decimal (n : NumberWord) : Decimal :=
  .ofParts n.whole (n.fraction.drop 1) n.power

/-- A numeral without an exponent that shows a value. -/
structure Shows (n : NumberWord) (q : ℚ) : Prop where
  wellFormed : n.WellFormed
  exponent : n.exponent = []
  toRat_eq : n.decimal.toRat = q

theorem shows_whole {whole : List Char} (h : IsDigits whole) (hne : whole ≠ []) :
    Shows ⟨whole, [], []⟩ (Decimal.natOfDigits whole) where
  wellFormed := ⟨h, .inl rfl, .inl rfl, .inl hne⟩
  exponent := rfl
  toRat_eq := by
    have hparts : decimal ⟨whole, [], []⟩ = ⟨Decimal.natOfDigits (whole ++ []), 0⟩ := rfl
    rw [hparts, Decimal.toRat, List.append_nil, zpow_zero, mul_one]

theorem shows_fraction {whole fraction : List Char} (h : IsDigits (whole ++ fraction))
    (hne : whole ≠ []) : Shows ⟨whole, '.' :: fraction, []⟩
      (Decimal.natOfDigits (whole ++ fraction) * 10 ^ (-fraction.length : Int)) where
  wellFormed := by
    obtain ⟨hwhole, hfraction⟩ := List.forall_mem_append.1 h
    exact ⟨hwhole, .inr ⟨fraction, rfl, hfraction⟩, .inl rfl, .inl hne⟩
  exponent := rfl
  toRat_eq := by
    have hparts : decimal ⟨whole, '.' :: fraction, []⟩ =
        ⟨Decimal.natOfDigits (whole ++ fraction), 0 - fraction.length⟩ := rfl
    rw [hparts, Decimal.toRat, zero_sub]

/-- Without an exponent, what a numeral is read as depends on the value it shows. -/
theorem Shows.value_eq {n : NumberWord} {d : Decimal} (h : n.Shows d.toRat)
    (hd : d.exponent ≤ 2048) : n.value = d.toFloat := by
  refine Decimal.toFloat_congr h.toRat_eq ?_ hd
  have hpower : n.power = 0 := by
    rw [power, h.exponent]
    rfl
  change n.power - ((n.fraction.drop 1).length : Int) ≤ 2048
  omega

end NumberWord

namespace Number

/-- Positional notation is a numeral that shows the value of the digits. -/
theorem exists_positionalText {d : Digits} (hdigits : IsDigits d.digits) (hne : d.digits ≠ []) :
    ∃ n : NumberWord, n.Shows d.toRat ∧ (plain.positionalText d).toList = n.word := by
  obtain ⟨digits, place⟩ := d
  dsimp only at hdigits hne
  unfold Layout.positionalText Digits.toRat
  dsimp only
  split
  · next hplace =>
    obtain ⟨k, hk⟩ := Int.eq_ofNat_of_zero_le (show 0 ≤ -place by omega)
    obtain rfl : place = -k := by omega
    have hword : IsDigits (['0'] ++ (zeros k ++ digits)) :=
      List.forall_mem_append.2
        ⟨isDigits_zeros 1, List.forall_mem_append.2 ⟨isDigits_zeros k, hdigits⟩⟩
    have hshows := NumberWord.shows_fraction hword (List.cons_ne_nil _ _)
    have hvalue : Decimal.natOfDigits (['0'] ++ (zeros k ++ digits)) = Decimal.natOfDigits digits :=
      (Decimal.natOfDigits_zeros_append 1 _).trans (Decimal.natOfDigits_zeros_append k _)
    have hlength : -((zeros k ++ digits).length : Int) = -k - digits.length := by
      rw [List.length_append, zeros, List.length_replicate]
      push_cast
      ring
    rw [hvalue, hlength] at hshows
    refine ⟨_, hshows, ?_⟩
    rw [String.toList_ofList, neg_neg, Int.toNat_natCast, NumberWord.word, List.append_nil]
    rfl
  split
  · next hplace hlong =>
    obtain ⟨k, hk⟩ := Int.eq_ofNat_of_zero_le (show 0 ≤ place - digits.length by omega)
    have hword : IsDigits (digits ++ zeros k) :=
      List.forall_mem_append.2 ⟨hdigits, isDigits_zeros k⟩
    have hshows := NumberWord.shows_whole hword (List.append_ne_nil_of_left_ne_nil hne _)
    rw [Decimal.natOfDigits_append, Decimal.natOfDigits_zeros, zeros, List.length_replicate,
      Nat.add_zero] at hshows
    push_cast at hshows
    rw [hk, zpow_natCast]
    refine ⟨_, hshows, ?_⟩
    rw [String.toList_append, String.toList_ofList, NumberWord.word, Int.toNat_natCast]
    simp [plain, zeros]
  · next hplace hlong =>
    obtain ⟨k, rfl⟩ := Int.eq_ofNat_of_zero_le (show 0 ≤ place by omega)
    have hword : IsDigits (digits.take k ++ digits.drop k) := by
      rwa [List.take_append_drop]
    have hwhole : digits.take k ≠ [] := by
      rw [← List.length_pos_iff, List.length_take]
      omega
    have hshows := NumberWord.shows_fraction hword hwhole
    have hlength : -((digits.drop k).length : Int) = k - digits.length := by
      rw [List.length_drop]
      omega
    rw [List.take_append_drop, hlength] at hshows
    refine ⟨_, hshows, ?_⟩
    rw [String.toList_ofList, Int.toNat_natCast, NumberWord.word, List.append_nil]

/-! ### The text of a number -/

section Texts

open Float.Model (UnpackedFloat)
open Float.Model.Format Float.Model.UnpackedFloat

variable {x : Float}

/-- The sign that a number is written with. -/
def sign (x : Float) : Sign :=
  match x.toModel.unpack with
  | .finite s _ _ _ => s
  | .zero s => s
  | .infinity s => s
  | .notANumber => .positive

theorem eq_abs_of_sign (h : sign x = .positive) : x = x.abs := by
  refine eq_of_unpack_eq ?_
  rw [unpack_abs]
  unfold sign at h
  cases hform : x.toModel.unpack with
  | notANumber => rfl
  | _ =>
    rw [hform] at h
    cases h
    rfl

theorem eq_neg_abs_of_sign (h : sign x = .negative) : x = -x.abs := by
  refine eq_of_unpack_eq ?_
  rw [unpack_neg, unpack_abs]
  unfold sign at h
  cases hform : x.toModel.unpack with
  | notANumber => rfl
  | _ =>
    rw [hform] at h
    cases h
    rfl

theorem literal_of_isNaN (hx : x.isNaN) : literal x = "any" := by
  rw [literal, if_pos hx]

theorem literal_of_text? {written : String} (hx : x.isNaN = false)
    (h : plain.text? x = some written) : literal x = written := by
  rw [literal, hx, if_neg Bool.false_ne_true, text, h]

/-- The text of a finite number is a numeral that is read as its magnitude, after its sign. -/
theorem exists_numeral (hx : x.isFinite) :
    ∃ n : NumberWord, n.WellFormed ∧ n.value = x.abs ∧
      (literal x).toList = (signMark (sign x)).toList ++ n.word := by
  rcases unpack_of_isFinite hx with ⟨s, hform⟩ | ⟨s, m, e, hm, hform⟩
  · have hnan : x.isNaN = false := congrArg UnpackedFloat.isNaN hform
    have htext : plain.text? x = some (signMark s ++ plain.zero) := by
      rw [Layout.text?, hform]
    have hsign : sign x = s := by rw [sign, hform]
    refine ⟨⟨['0'], [], []⟩, (NumberWord.shows_whole (isDigits_zeros 1) (List.cons_ne_nil _ _)).1,
      ?_, ?_⟩
    · refine eq_of_unpack_eq ?_
      rw [unpack_abs, hform]
      rfl
    · rw [literal_of_text? hnan htext, String.toList_append, hsign]
      rfl
  · have hnan : x.isNaN = false := congrArg UnpackedFloat.isNaN hform
    have htext : plain.text? x = some (signMark s ++ plain.write (shortest .up x m e)) := by
      rw [Layout.text?, hform]
      rfl
    have hsign : sign x = s := by rw [sign, hform]
    have hread := toFloat_shortestDecimal .up hform
    have hunpack := unpack_abs x
    rw [hform, ← hread] at hunpack
    obtain ⟨hpos, hexponent⟩ := Decimal.digits_pos_and_exponent_le hunpack
    obtain ⟨-, hdigits, -⟩ := Digits.exists_ofDecimal (shortestDecimal .up x m e)
    obtain ⟨n, hshows, hword⟩ := exists_positionalText hdigits (Digits.ofDecimal_ne_nil hpos)
    rw [Digits.toRat_ofDecimal] at hshows
    refine ⟨n, hshows.wellFormed, (hshows.value_eq hexponent).trans hread, ?_⟩
    rw [literal_of_text? hnan htext, String.toList_append, hsign, ← hword]
    rfl

theorem literal_of_infinity {s : Sign} (hx : x.toModel.unpack = .infinity s) :
    literal x = signMark s ++ "inf" := by
  have hnan : x.isNaN = false := congrArg UnpackedFloat.isNaN hx
  have hlt : x < 0 ↔ s = .negative := by
    change x < ofUnpacked (.zero .positive) ↔ _
    rw [lt_iff_lt, hx]
    cases s with
    | positive => exact iff_of_false Bool.false_ne_true nofun
    | negative => exact iff_of_true rfl rfl
  have hnone : plain.text? x = none := by rw [Layout.text?, hx]
  rw [literal, hnan, if_neg Bool.false_ne_true, text, hnone]
  dsimp only
  rw [hnan, if_neg Bool.false_ne_true]
  cases s with
  | positive => rw [if_neg (hlt.not.2 nofun)]; rfl
  | negative => rw [if_pos (hlt.2 rfl)]; rfl

end Texts

end Number

end Waypoints
