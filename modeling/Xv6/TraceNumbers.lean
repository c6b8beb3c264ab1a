import Mathlib.Data.Nat.Digits.Defs
import Xv6.TraceBuffers

namespace Xv6

/-- The do loop of printint, on a uint: the characters in buf, the last digit first. -/
def printLoop (base : Nat) : Nat → Nat → Text
  | 0, _ => []
  | n + 1, x =>
    "0123456789abcdef".toList.getD (x % base) nul :: if x / base ≠
      0 then printLoop base n (x / base) else []

/-- The characters that printint writes; buf has room for 16 of them. -/
def printint (xx : Int) (base : Nat) (sign : Bool) : Text :=
  let neg := sign ∧ xx < 0
  let x := ((if neg then -xx else xx) % 2 ^ 32).toNat
  (printLoop base 16 x ++ if neg then ['-'] else []).reverse

/-- The decimal numeral of a number. -/
def numeral (v : Int) : Text := (if v < 0 then ['-'] else []) ++ Nat.toDigits 10 v.natAbs

section

variable {n x : Nat} {v num : Int}

theorem hexDigit_eq : ∀ k < 10, "0123456789abcdef".toList.getD k nul = Nat.digitChar k := by decide

theorem zeroDigit_eq : ∀ k < 10, Char.ofNat (48 + k) = Nat.digitChar k := by decide

theorem printLoop_eq (h : x < 10 ^ (n + 1)) :
    (printLoop 10 (n + 1) x).reverse = Nat.toDigits 10 x := by
  induction n generalizing x with
  | zero =>
    have hx : x < 10 := by omega
    rw [printLoop, if_neg (by omega), hexDigit_eq _ (by omega), Nat.toDigits_of_lt_base hx,
      Nat.mod_eq_of_lt hx]
    rfl
  | succ n ih =>
    rw [printLoop, List.reverse_cons, hexDigit_eq _ (Nat.mod_lt x (by decide)),
      Nat.toDigits_eq_if (by decide)]
    by_cases hx : x < 10
    · rw [if_neg (by omega), if_pos hx, Nat.mod_eq_of_lt hx]
      rfl
    · have hdiv : x / 10 < 10 ^ (n + 1) := by
        rw [Nat.pow_succ, Nat.mul_comm] at h
        exact Nat.div_lt_of_lt_mul h
      rw [if_pos (by omega), if_neg hx, ih hdiv]

theorem printint_eq (hlo : -2 ^ 31 ≤ v) (hhi : v < 2 ^ 31) : printint v 10 true = numeral v := by
  unfold printint numeral
  by_cases hv : v < 0
  · have hx : (-v % 2 ^ 32).toNat = v.natAbs := by omega
    simp only [hv, and_self, if_true]
    rw [List.reverse_append, hx, printLoop_eq (by omega)]
    rfl
  · have hx : (v % 2 ^ 32).toNat = v.natAbs := by omega
    simp only [hv, and_false, if_false]
    rw [List.append_nil, hx, printLoop_eq (by omega)]
    rfl

theorem digits_reverse (h : 0 < num) (hn : num.natAbs < 10 ^ n) :
    (digits n num).reverse = numeral num := by
  have hnum : numeral num = Nat.toDigits 10 num.natAbs := by
    unfold numeral
    rw [if_neg (by omega), List.nil_append]
  rw [hnum]
  clear hnum
  induction n generalizing num with
  | zero => omega
  | succ n ih =>
    have hdigit : Char.ofNat (48 + num.tmod 10).toNat = Nat.digitChar (num.natAbs % 10) := by
      rw [← zeroDigit_eq _ (Nat.mod_lt _ (by decide)), Int.tmod_eq_emod_of_nonneg (by omega)]
      congr 1
      omega
    rw [digits, if_neg (by omega), List.reverse_cons, hdigit, Nat.toDigits_eq_if (by decide)]
    have hdiv : (num.tdiv 10).natAbs = num.natAbs / 10 := Int.natAbs_tdiv ..
    have htdiv : num.tdiv 10 = num / 10 := Int.tdiv_eq_ediv_of_nonneg (by omega)
    by_cases h10 : num.natAbs < 10
    · have hzero : num.tdiv 10 = 0 := by omega
      rw [if_pos h10, hzero, Nat.mod_eq_of_lt h10]
      cases n <;> rfl
    · rw [if_neg h10, ih (by omega), hdiv]
      rw [hdiv]
      rw [Nat.pow_succ, Nat.mul_comm] at hn
      exact Nat.div_lt_of_lt_mul hn

theorem digits_length (h : num ≠ 0) (hn : num.natAbs < 10 ^ n) :
    (digits n num).length = (Nat.toDigits 10 num.natAbs).length := by
  induction n generalizing num with
  | zero => omega
  | succ n ih =>
    have hdiv : (num.tdiv 10).natAbs = num.natAbs / 10 := Int.natAbs_tdiv ..
    rw [digits, if_neg h, List.length_cons, Nat.toDigits_eq_if (by decide)]
    by_cases h10 : num.natAbs < 10
    · have hzero : num.tdiv 10 = 0 := by omega
      rw [if_pos h10, hzero]
      cases n <;> rfl
    · rw [if_neg h10, List.length_append, ih (by omega), hdiv]
      · rfl
      · rw [hdiv]
        rw [Nat.pow_succ, Nat.mul_comm] at hn
        exact Nat.div_lt_of_lt_mul hn

theorem numeral_length : (numeral v).length =
    (if v < 0 then 1 else 0) + (Nat.toDigits 10 v.natAbs).length := by
  unfold numeral
  rw [List.length_append]
  split <;> rfl

theorem numeral_length_le (hlo : -2 ^ 31 ≤ v) (hhi : v < 2 ^ 31) : (numeral v).length ≤ 100 := by
  have hlen : (Nat.toDigits 10 v.natAbs).length ≤ 10 :=
    (Nat.length_toDigits_le_iff (by decide) (by decide)).mpr (by omega)
  rw [numeral_length]
  split <;> omega

theorem numberToString_eq_numeral (h0 : 0 ≤ v) (h : v < 100000) :
    numberToString v = some (numeral v) := by
  rw [numberToString_eq_ite, if_pos (by omega), numberText]
  by_cases hv : v = 0
  · rw [if_pos hv, hv]
    rfl
  · rw [if_neg hv, digits_reverse (by omega) (by omega)]

/-- A negative number is stored without a sign, so that what is stored is too short. -/
theorem numberToString_ne_numeral {t : Text} (h0 : v < 0) (hlo : -2 ^ 31 ≤ v)
    (h : numberToString v = some t) :
    t.length < (numeral v).length := by
  unfold numberToString at h
  rw [if_neg (by omega)] at h
  obtain ⟨_, rfl⟩ := Runs.of_guard h
  rw [List.length_reverse, digits_length (by omega) (by omega), numeral_length, if_pos h0]
  omega

end

open TraceBuf in
/-- The numbers in a record are those that cprintf prints if they are not negative and their digits
fit the arrays. -/
theorem recorded_numbers_match_iff {v pid : Int} (hvlo : -2 ^ 31 ≤ v) (hvhi : v < 2 ^ 31)
    (hpid : 1 ≤ pid) (hpid' : pid < 2 ^ 31) (pidS : Fin 5 → Char) :
    printint v 10 true = numeral v ∧ printint pid 10 true = numeral pid ∧
      ((∀ b i, TraceBuf.numberToString pidS v b i = string (printint v 10 true) b i) ↔ 0 ≤ v ∧ v < 100000) ∧
      ((∀ b i, pidPart pid b i = string (printint pid 10 true) b i) ↔ pid < 10000) := by
  have hprint := printint_eq hvlo hvhi
  have hprint' := printint_eq (v := pid) (by omega) hpid'
  refine ⟨hprint, hprint', ?_, ?_⟩
  · rw [hprint]
    constructor
    · intro h
      have hzero := h (fun _ => nul) 0
      rw [numberToString_eq hvlo hvhi, string_eq (Nat.zero_le 100), Nat.zero_add,
        if_pos (numeral_length_le hvlo hvhi)] at hzero
      obtain ⟨t, ht, hstring⟩ := Option.bind_eq_some_iff.mp hzero
      have hsmall := (Runs.of_guard (numberToString_eq_ite ▸ ht)).1
      have hlen := numberToString_length ht
      rw [string_eq (Nat.zero_le 100), Nat.zero_add, if_pos (by omega)] at hstring
      have hindex : t.length = (numeral v).length := congrArg Prod.snd (Option.some.inj hstring)
      by_cases h0 : v < 0
      · have := numberToString_ne_numeral h0 hvlo ht
        omega
      · omega
    · rintro ⟨h0, h⟩ b i
      rw [numberToString_eq hvlo hvhi, numberToString_eq_numeral h0 h, Option.bind_some]
  · rw [hprint']
    constructor
    · intro h
      have hzero := h (fun _ => nul) 0
      rw [pidPart_eq (by omega) hpid', string_eq (Nat.zero_le 100), Nat.zero_add,
        if_pos (numeral_length_le (by omega) hpid')] at hzero
      obtain ⟨t, ht, _⟩ := Option.bind_eq_some_iff.mp hzero
      have hsmall := (Runs.of_guard (pidToString_eq_ite ▸ ht)).1
      omega
    · intro h b i
      rw [pidPart_eq (by omega) hpid', pidToString_eq_ite, if_pos (by omega), Option.bind_some,
        digits_reverse (by omega) (by omega)]

open TraceBuf in
theorem recorded_numbers_match_iff_small :
    (∀ b i, TraceBuf.numberToString (fun _ => nul) 42 b i = string (printint 42 10 true) b i) ∧
      ∀ b i, pidPart 3 b i = string (printint 3 10 true) b i := by
  obtain ⟨_, _, hv, hpid⟩ :=
    @recorded_numbers_match_iff 42 3 (by decide) (by decide) (by decide) (by decide)
    fun _ => nul
  exact ⟨hv.mpr (by decide), hpid.mpr (by decide)⟩

open TraceBuf in
/-- The result -1 of a failed call is recorded as "/". -/
theorem recorded_minus_one :
    printint (-1) 10 true = "-1".toList ∧
      (TraceBuf.numberToString (fun _ => nul) (-1) (fun _ => nul) 0).map (fun r => (slotText r.1, r.2)) =
        some ("/".toList, 1) := by
  decide +kernel

end Xv6
