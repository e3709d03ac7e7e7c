import FrontEnd.Numeral
import Mathlib.Data.List.Forall2
import Mathlib.Data.Nat.Digits.Defs
import Mathlib.Tactic.IntervalCases
import Mathlib.Tactic.Ring

/-!
# What integer literals denote

A literal announces a base by the way it begins, and goes on with digits of that base. What it
denotes is what its digits come to by their places. Letters, in the mark as well as among the
digits, may be of either case.

* `DigitOf` — a digit of a base, and what it stands for.
* `Announces` — the ways for a literal to begin.
* `Denotes` — what a literal denotes; a number of any size.

Principal results: `Numeral.valueFrom?_eq_some_iff` (the value of digits is what they come to by
their places), `Numeral.value?_eq_some_iff` (a text has the value that it denotes) and
`literalValue?_eq_some_iff` (the bound of the values of literals).
-/

namespace FrontEnd

/-- The digits, each at the place that it stands for. -/
def lowerDigits : List Char :=
  ['0', '1', '2', '3', '4', '5', '6', '7', '8', '9', 'a', 'b', 'c', 'd', 'e', 'f']

def upperDigits : List Char :=
  ['0', '1', '2', '3', '4', '5', '6', '7', '8', '9', 'A', 'B', 'C', 'D', 'E', 'F']

/-- The character is a digit of the base and stands for `d`. -/
def DigitOf (base : Nat) (c : Char) (d : Nat) : Prop :=
  d < base ∧ (lowerDigits[d]? = some c ∨ upperDigits[d]? = some c)

/-- The text begins as a literal of the base does, and the digits are the rest of it. -/
inductive Announces : List Char → Nat → List Char → Prop where
  | hexadecimal {x : Char} (hx : x = 'x' ∨ x = 'X') (digits : List Char) :
      Announces ('0' :: x :: digits) 16 digits
  | octal {o : Char} (ho : o = 'o' ∨ o = 'O') (digits : List Char) :
      Announces ('0' :: o :: digits) 8 digits
  | binary {b : Char} (hb : b = 'b' ∨ b = 'B') (digits : List Char) :
      Announces ('0' :: b :: digits) 2 digits
  | zero (digits : List Char) : Announces ('0' :: digits) 8 digits
  | decimal {digits : List Char} (h : digits.head? = some '0' → digits = ['0']) :
      Announces digits 10 digits

/-- The text is a literal and denotes `n`: it has digits, all of them are of its base, and `n` is
what they come to, the last digit being the one of the units. -/
def Denotes (text : List Char) (n : Nat) : Prop :=
  ∃ base digits ds, Announces text base digits ∧ digits ≠ [] ∧
    List.Forall₂ (DigitOf base) digits ds ∧ n = Nat.ofDigits base ds.reverse

/-! ## Digits -/

theorem digitOf_iff {base d : Nat} {c : Char} :
    DigitOf base c d ↔ d < base ∧
      (d < 10 ∧ c.toNat = 48 + d ∨ 10 ≤ d ∧ d < 16 ∧ (c.toNat = 87 + d ∨ c.toNat = 55 + d)) := by
  refine and_congr_right fun _ => ?_
  rcases Nat.lt_or_ge d 16 with hlt | hge
  · interval_cases d <;> simp [lowerDigits, upperDigits, ← Char.toNat_inj, eq_comm]
  · rw [List.getElem?_eq_none hge, List.getElem?_eq_none hge]
    simp only [reduceCtorEq, or_self, false_iff]
    omega

theorem toNat_toLower (c : Char) :
    c.toLower.toNat = if 65 ≤ c.toNat ∧ c.toNat ≤ 90 then c.toNat + 32 else c.toNat := by
  have hcapital : c.val ≥ 'A'.val ∧ c.val ≤ 'Z'.val ↔ 65 ≤ c.toNat ∧ c.toNat ≤ 90 := by
    rw [ge_iff_le, UInt32.le_iff_toNat_le, UInt32.le_iff_toNat_le]
    rfl
  unfold Char.toLower
  simp only [← hcapital]
  split
  · rename_i h
    have hle : c.val.toNat ≤ 90 := (hcapital.1 h).2
    have hsmall : c.val.toNat + 32 < 2 ^ 32 := by omega
    exact (UInt32.toNat_add c.val 32).trans (Nat.mod_eq_of_lt hsmall)
  · rfl

/-- A letter is folded from itself and from its capital. -/
theorem toLower_eq_iff {c : Char} (small capital : Char)
    (hcapital : 65 ≤ capital.toNat ∧ capital.toNat ≤ 90)
    (hsmall : small.toNat = capital.toNat + 32) :
    c.toLower = small ↔ c = small ∨ c = capital := by
  rw [← Char.toNat_inj, ← Char.toNat_inj, ← Char.toNat_inj, toNat_toLower]
  split <;> omega

theorem toLower_eq_zero_iff {c : Char} : c.toLower = '0' ↔ c = '0' := by
  have hzero : '0'.toNat = 48 := rfl
  rw [← Char.toNat_inj, ← Char.toNat_inj, toNat_toLower]
  split <;> omega

namespace Numeral

theorem digit?_eq_some_iff {base d : Nat} {c : Char} :
    digit? base c = some d ↔ d < base ∧
      (d < 10 ∧ c.toNat = 48 + d ∨ 10 ≤ d ∧ d < 36 ∧ c.toNat = 87 + d) := by
  have hle (a b : Char) : a ≤ b ↔ a.toNat ≤ b.toNat := UInt32.le_iff_toNat_le
  have h0 : '0'.toNat = 48 := rfl
  have h9 : '9'.toNat = 57 := rfl
  have ha : 'a'.toNat = 97 := rfl
  have hz : 'z'.toNat = 122 := rfl
  unfold digit?
  simp only [hle, h0, h9, ha, hz]
  split
  · rw [Option.some.injEq]
    omega
  · split
    · rw [Option.some.injEq]
      omega
    · simp only [reduceCtorEq, false_iff]
      omega

/-- The digits of the bases up to sixteen are read in either case. -/
theorem digit?_toLower {base d : Nat} (hbase : base ≤ 16) {c : Char} :
    digit? base c.toLower = some d ↔ DigitOf base c d := by
  rw [digit?_eq_some_iff, digitOf_iff, toNat_toLower]
  split <;> omega

/-- **The value of digits** is what they come to by their places, behind digits of the value
`high`. -/
theorem valueFrom?_eq_some_iff {base high n : Nat} (hbase : base ≤ 16) {digits : List Char} :
    valueFrom? base high (digits.map Char.toLower) = some n ↔
      ∃ ds, List.Forall₂ (DigitOf base) digits ds ∧
        n = high * base ^ ds.length + Nat.ofDigits base ds.reverse := by
  induction digits generalizing high with
  | nil =>
    simp only [List.forall₂_nil_left_iff, exists_eq_left, List.length_nil, List.reverse_nil,
      Nat.ofDigits_nil, pow_zero, Nat.mul_one, Nat.add_zero]
    exact ⟨fun h => (Option.some.inj h).symm, fun h => congrArg some h.symm⟩
  | cons c cs ih =>
    have hvalue (d : Nat) (ds : List Nat) :
        high * base ^ (d :: ds).length + Nat.ofDigits base (d :: ds).reverse =
          (high * base + d) * base ^ ds.length + Nat.ofDigits base ds.reverse := by
      rw [List.reverse_cons, Nat.ofDigits_append, Nat.ofDigits_singleton, List.length_reverse,
        List.length_cons, pow_succ]
      ring
    rw [List.map_cons, valueFrom?]
    constructor
    · intro h
      cases hd : digit? base c.toLower with
      | none =>
        rw [hd] at h
        cases h
      | some d =>
        rw [hd] at h
        obtain ⟨ds, hds, rfl⟩ := ih.1 h
        exact ⟨d :: ds, .cons ((digit?_toLower hbase).1 hd) hds, (hvalue d ds).symm⟩
    · rintro ⟨_, hds, rfl⟩
      cases hds with
      | @cons _ d _ ds hd hds =>
        rw [(digit?_toLower hbase).2 hd]
        exact ih.2 ⟨ds, hds, hvalue d ds⟩

/-! ## Bases -/

theorem ofLower_of_ne_zero {c : Char} (h : c ≠ '0') (cs : List Char) :
    ofLower (c :: cs) = ⟨10, c :: cs⟩ := by
  unfold ofLower
  split <;> simp_all

theorem ofLower_zero {c : Char} (hx : c ≠ 'x') (ho : c ≠ 'o') (hb : c ≠ 'b') (cs : List Char) :
    ofLower ('0' :: c :: cs) = ⟨8, c :: cs⟩ := by
  unfold ofLower
  split <;> simp_all

/-- Every text is taken to begin in one of the ways for a literal to begin. -/
theorem exists_announces (text : List Char) :
    ∃ base digits, ofLower (text.map Char.toLower) = ⟨base, digits.map Char.toLower⟩ ∧
      base ≤ 16 ∧ Announces text base digits := by
  match text with
  | [] => exact ⟨10, [], rfl, by decide, .decimal nofun⟩
  | c :: cs =>
    by_cases hc : c = '0'
    · subst hc
      match cs with
      | [] => exact ⟨10, ['0'], rfl, by decide, .decimal fun _ => rfl⟩
      | d :: digits =>
        have hmark {letter : Char} (h : d.toLower = letter) :
            ('0' :: d :: digits).map Char.toLower = '0' :: letter :: digits.map Char.toLower := by
          rw [List.map_cons, List.map_cons, h]
          rfl
        by_cases hx : d.toLower = 'x'
        · have hletter := (toLower_eq_iff 'x' 'X' (by decide) rfl).1 hx
          exact ⟨16, digits, by rw [hmark hx, ofLower], by decide, .hexadecimal hletter digits⟩
        by_cases ho : d.toLower = 'o'
        · have hletter := (toLower_eq_iff 'o' 'O' (by decide) rfl).1 ho
          exact ⟨8, digits, by rw [hmark ho, ofLower], by decide, .octal hletter digits⟩
        by_cases hb : d.toLower = 'b'
        · have hletter := (toLower_eq_iff 'b' 'B' (by decide) rfl).1 hb
          exact ⟨2, digits, by rw [hmark hb, ofLower], by decide, .binary hletter digits⟩
        exact ⟨8, d :: digits, ofLower_zero hx ho hb _, by decide, .zero (d :: digits)⟩
    · have hc' : c.toLower ≠ '0' := fun h => hc (toLower_eq_zero_iff.1 h)
      refine ⟨10, c :: cs, ofLower_of_ne_zero hc' _, by decide, .decimal fun h => ?_⟩
      exact absurd (Option.some.inj h) hc

/-- A text that announces a base, and goes on with digits of it, is taken so. -/
theorem ofLower_of_announces {text digits : List Char} {base : Nat} {ds : List Nat}
    (h : Announces text base digits) (hne : digits ≠ [])
    (hdigits : List.Forall₂ (DigitOf base) digits ds) :
    ofLower (text.map Char.toLower) = ⟨base, digits.map Char.toLower⟩ ∧ base ≤ 16 := by
  cases h with
  | hexadecimal hx => rcases hx with rfl | rfl <;> exact ⟨rfl, by decide⟩
  | octal ho => rcases ho with rfl | rfl <;> exact ⟨rfl, by decide⟩
  | binary hb => rcases hb with rfl | rfl <;> exact ⟨rfl, by decide⟩
  | zero =>
    refine ⟨?_, by decide⟩
    cases hdigits with
    | nil => exact absurd rfl hne
    | @cons c d cs ds hd =>
      -- no octal digit is the letter of a mark
      have hoctal : c.toLower.toNat < 56 := by
        rw [digitOf_iff] at hd
        rw [toNat_toLower]
        split <;> omega
      have hletter {letter : Char} (hletter : 56 ≤ letter.toNat) : c.toLower ≠ letter := by
        rintro rfl
        omega
      exact ofLower_zero (hletter (by decide)) (hletter (by decide)) (hletter (by decide)) _
  | decimal h =>
    refine ⟨?_, by decide⟩
    cases text with
    | nil => exact absurd rfl hne
    | cons c cs =>
      by_cases hc : c = '0'
      · subst hc
        rw [h rfl]
        rfl
      · exact ofLower_of_ne_zero (fun h => hc (toLower_eq_zero_iff.1 h)) _

/-- **A text has the value that it denotes.** -/
theorem value?_eq_some_iff {text : String} {n : Nat} :
    (ofText text).value? = some n ↔ Denotes text.toList n := by
  have hvalue {base : Nat} {digits : List Char} (hbase : base ≤ 16) :
      value? ⟨base, digits.map Char.toLower⟩ = some n ↔
        digits ≠ [] ∧ ∃ ds, List.Forall₂ (DigitOf base) digits ds ∧
          n = Nat.ofDigits base ds.reverse := by
    have hfrom : valueFrom? base 0 (digits.map Char.toLower) = some n ↔ _ :=
      valueFrom?_eq_some_iff hbase
    simp only [Nat.zero_mul, Nat.zero_add] at hfrom
    rw [← hfrom]
    cases digits <;> simp [value?]
  constructor
  · intro h
    obtain ⟨base, digits, heq, hbase, hannounces⟩ := exists_announces text.toList
    rw [ofText, heq, hvalue hbase] at h
    obtain ⟨hne, ds, hdigits, hn⟩ := h
    exact ⟨base, digits, ds, hannounces, hne, hdigits, hn⟩
  · rintro ⟨base, digits, ds, hannounces, hne, hdigits, hn⟩
    obtain ⟨heq, hbase⟩ := ofLower_of_announces hannounces hne hdigits
    rw [ofText, heq, hvalue hbase]
    exact ⟨hne, ds, hdigits, hn⟩

end Numeral

/-- The value of a text is the number that it denotes, if that is below 2 ^ 63. -/
theorem literalValue?_eq_some_iff {text : String} {v : Int64} :
    literalValue? text = some v ↔ ∃ n, Denotes text.toList n ∧ n < 2 ^ 63 ∧ v.toInt = n := by
  have hbound (n : Nat) : n ≤ maxLiteral ↔ n < 2 ^ 63 := by
    unfold maxLiteral
    omega
  simp only [← Numeral.value?_eq_some_iff, ← hbound]
  unfold literalValue?
  cases hvalue : (Numeral.ofText text).value? with
  | none => simp
  | some n =>
    simp only [Option.some.injEq, exists_eq_left']
    by_cases hle : n ≤ maxLiteral
    · have htoInt := Int64.toInt_ofNat_of_lt ((hbound n).1 hle)
      rw [if_pos hle, Option.some.injEq, ← Int64.toInt_inj, htoInt]
      exact ⟨fun h => ⟨hle, h.symm⟩, fun h => h.2.symm⟩
    · rw [if_neg hle]
      exact ⟨nofun, fun h => absurd h.1 hle⟩

/-- **The value of an integer literal.** A text has a value exactly if it is a literal that denotes
a number below 2 ^ 63, and its value is that number. Any other text has none. -/
theorem literalValue_exact (text : String) :
    (∀ v, literalValue? text = some v ↔
        ∃ n, Denotes text.toList n ∧ n < 2 ^ 63 ∧ v.toInt = n) ∧
      (literalValue? text = none ↔ ¬ ∃ n, Denotes text.toList n ∧ n < 2 ^ 63) := by
  refine ⟨fun v => literalValue?_eq_some_iff, ?_⟩
  rw [Option.eq_none_iff_forall_ne_some]
  constructor
  · rintro hnone ⟨n, hn, hlt⟩
    exact hnone (Int64.ofNat n)
      (literalValue?_eq_some_iff.2 ⟨n, hn, hlt, Int64.toInt_ofNat_of_lt hlt⟩)
  · intro hnone v hv
    obtain ⟨n, hn, hlt, -⟩ := literalValue?_eq_some_iff.1 hv
    exact hnone ⟨n, hn, hlt⟩

example : ["0X7fffFFFFffffffff", "00000000000000000000017", "0o17", "0b101"].map literalValue? =
    [some 9223372036854775807, some 15, some 15, some 5] := by
  decide +kernel

example : ["", "+1", "1_0", "٣", "0x", "08", "0b2", "0x8000000000000000"].map literalValue? =
    List.replicate 8 none := by
  decide +kernel

end FrontEnd
