import LayeredConfig.Decimal.Reading
import LayeredConfig.Text.Blank

/-!
# Written integers

A written integer is a text without blanks that denotes the integer, so a 64-bit integer is read back
from its text, whether that is freed of blanks first or not.
-/

namespace LayeredConfig

theorem digitValue?_of_isDigit {c : Char} (h : c.isDigit) :
    digitValue? 10 c = some (c.toNat - '0'.toNat) := by
  obtain ⟨hlow, hhigh⟩ : 48 ≤ c.toNat ∧ c.toNat ≤ 57 := Char.isDigit_iff_toNat.mp h
  have hdigit : '0' ≤ c ∧ c ≤ '9' := ⟨hlow, hhigh⟩
  have hlt : c.toNat - '0'.toNat < 10 := by
    show c.toNat - 48 < 10
    omega
  rw [digitValue?, if_pos hdigit]
  simp only [Option.filter_some, decide_eq_true hlt, if_true]

/-- Digits accumulate to the number that core reads from them. -/
theorem foldlM_digits (cs : List Char) (hcs : ∀ c ∈ cs, c.isDigit) (n : Nat) :
    cs.foldlM (fun n c => (digitValue? 10 c).map (10 * n + ·)) n = some (Nat.ofDigitChars 10 cs n) := by
  induction cs generalizing n with
  | nil => simp
  | cons c rest ih =>
    rw [List.foldlM_cons, digitValue?_of_isDigit (hcs c List.mem_cons_self), Nat.ofDigitChars_cons]
    exact ih (fun d hd => hcs d (List.mem_cons_of_mem _ hd)) _

theorem natOfDigits?_toDigits (n : Nat) : natOfDigits? 10 (Nat.toDigits 10 n) = some n := by
  have hdigits : ∀ c ∈ Nat.toDigits 10 n, c.isDigit := fun c hc =>
    Nat.isDigit_of_mem_toDigits (by decide) (by decide) hc
  have hfold := foldlM_digits _ hdigits 0
  rw [Nat.ofDigitChars_ten_toDigits] at hfold
  unfold natOfDigits?
  split
  · next he => exact absurd he Nat.toDigits_ne_nil
  · exact hfold

theorem takeSign_toDigits (n : Nat) : takeSign (Nat.toDigits 10 n) = (false, Nat.toDigits 10 n) := by
  have hdigits : ∀ c ∈ Nat.toDigits 10 n, c.isDigit := fun c hc =>
    Nat.isDigit_of_mem_toDigits (by decide) (by decide) hc
  unfold takeSign
  split
  · next he => exact absurd (hdigits '-' (by simp [he])) (by decide)
  · next he => exact absurd (hdigits '+' (by simp [he])) (by decide)
  · rfl

theorem toList_toString_ofNat (n : Nat) : (toString (n : Int)).toList = Nat.toDigits 10 n := by
  show (Nat.repr n).toList = _
  exact Nat.toList_repr

theorem toList_toString_negSucc (n : Nat) :
    (toString (Int.negSucc n)).toList = '-' :: Nat.toDigits 10 (n + 1) := by
  show ("-" ++ Nat.repr (n + 1)).toList = _
  rw [String.toList_append, Nat.toList_repr]
  rfl

theorem intOfDigits?_toString (i : Int) : intOfDigits? 10 (toString i).toList = some i := by
  cases i with
  | ofNat n =>
    rw [Int.ofNat_eq_natCast, toList_toString_ofNat, intOfDigits?, takeSign_toDigits]
    simp [natOfDigits?_toDigits]
  | negSucc n =>
    rw [toList_toString_negSucc, intOfDigits?]
    simp only [takeSign, natOfDigits?_toDigits, if_true]
    rfl

theorem int64OfInt?_toInt (i : Int64) : int64OfInt? i.toInt = some i := by
  rw [int64OfInt?, if_pos ⟨i.minValue_le_toInt, i.toInt_le⟩, Int64.ofInt_toInt]

theorem readInt64?_toString (i : Int64) : readInt64? (toString i.toInt) = some i := by
  rw [readInt64?, intOfDigits?_toString, Option.bind_some, int64OfInt?_toInt]

/-- A number beyond the signed range denotes no signed 64-bit integer. -/
theorem readInt64?_eq_none {n : Nat} (h : Int64.maxValue.toInt < n) : readInt64? (toString n) = none := by
  have hread : intOfDigits? 10 (toString n).toList = some (n : Int) := intOfDigits?_toString n
  rw [readInt64?, hread, Option.bind_some, int64OfInt?, if_neg]
  omega

theorem readUInt64?_toString (n : UInt64) : readUInt64? (toString n.toNat) = some n := by
  have hdigits : (toString n.toNat).toList = Nat.toDigits 10 n.toNat := toList_toString_ofNat n.toNat
  rw [readUInt64?, hdigits, takeSign_toDigits]
  simp [natOfDigits?_toDigits, n.toNat_lt_size]

/-- What only reads as an unsigned integer is beyond the signed range. -/
theorem lt_of_readInt64?_eq_none {text : String} {n : UInt64} (hsigned : readInt64? text = none)
    (h : readUInt64? text = some n) : Int64.maxValue.toInt < n.toNat := by
  rw [readInt64?, intOfDigits?] at hsigned
  rw [readUInt64?] at h
  generalize takeSign text.toList = parts at h hsigned
  obtain ⟨negative, digits⟩ := parts
  cases negative with
  | true => contradiction
  | false =>
    obtain ⟨k, hk, hfit⟩ := Option.bind_eq_some_iff.mp h
    obtain ⟨hsize, hn⟩ := Option.ite_none_right_eq_some.mp hfit
    have hlarge : int64OfInt? (k : Int) = none := by simpa [hk] using hsigned
    have hnat : n.toNat = k := by
      rw [← Option.some.inj hn]
      exact UInt64.toNat_ofNat_of_lt' hsize
    have hmin : Int64.minValue.toInt ≤ 0 := by decide
    rw [int64OfInt?] at hlarge
    split at hlarge
    · contradiction
    · omega

/-! ## Blanks -/

theorem trimmed_of_no_blank {text : String} (h : ∀ c ∈ text.toList, isBlank c = false) :
    trimmed text = text := by
  have hfront : text.toList.dropWhile isBlank = text.toList := by
    cases hs : text.toList with
    | nil => rfl
    | cons c rest => rw [List.dropWhile_cons_of_neg (by simp [h c (by simp [hs])])]
  have hback : text.toList.reverse.dropWhile isBlank = text.toList.reverse := by
    cases hs : text.toList.reverse with
    | nil => rfl
    | cons c rest =>
      have hmem : c ∈ text.toList := List.mem_reverse.mp (by simp [hs])
      rw [List.dropWhile_cons_of_neg (by simp [h c hmem])]
  rw [trimmed, trimBlanks, hfront, hback, List.reverse_reverse, String.ofList_toList]

theorem isBlank_of_isDigit {c : Char} (h : c.isDigit) : isBlank c = false := by
  obtain ⟨hlow, hhigh⟩ : 48 ≤ c.toNat ∧ c.toNat ≤ 57 := Char.isDigit_iff_toNat.mp h
  simp only [isBlank, Bool.or_eq_false_iff, Bool.and_eq_false_iff, decide_eq_false_iff_not,
    beq_eq_false_iff_ne]
  omega

theorem trimmed_toString (i : Int) : trimmed (toString i) = toString i := by
  have hdigits : ∀ n, ∀ c ∈ Nat.toDigits 10 n, isBlank c = false := fun n c hc =>
    isBlank_of_isDigit (Nat.isDigit_of_mem_toDigits (by decide) (by decide) hc)
  refine trimmed_of_no_blank fun c hc => ?_
  cases i with
  | ofNat n => exact hdigits n c (toList_toString_ofNat n ▸ hc)
  | negSucc n =>
    rw [toList_toString_negSucc] at hc
    rcases List.mem_cons.mp hc with rfl | hc
    · decide
    · exact hdigits _ c hc

end LayeredConfig
