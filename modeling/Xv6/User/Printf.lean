import Mathlib

/-!
# `printf`: `printint`, `printptr` and `vprintf`

The formatter of `user/printf.c`. A format string is the list of its bytes up to the NUL, and the
output of a call is the list of bytes `putc` writes, in order. An argument of `...` is given by the
C type it was passed as (`Arg`): `va_arg` of a type the next argument was not passed as, or past the
last argument, is undefined, and the model returns `none` there.

`printint` builds the digits of its `uint` least significant first and prints them backwards;
`printptr` shifts the top nibble out sixteen times. `format long` is the same loop over the
conversions as they are meant to print (signed and unsigned decimal, upper-case hexadecimal,
sixteen hexadecimal digits for a pointer), with `long` for `%l`. `vprintf` is `format` for every
format string and every argument list (`vprintf_eq_format`) when `long` prints the argument modulo
`2^32`: `%l` hands its `uint64` to `printint`'s `int` parameter.
-/

namespace Xv6.User.Printf

/-- `digits[d]` of `"0123456789ABCDEF"`, for `d < 16`. -/
def digits (d : Nat) : UInt8 :=
  UInt8.ofNat (if d < 10 then '0'.toNat + d else 'A'.toNat + (d - 10))

/-- The `do ... while((x /= base) != 0)` loop of `printint`: the digits of `x`, least significant
first, and at least one. -/
def digitLoop (base : Nat) (hb : 2 ≤ base) (x : Nat) : List UInt8 :=
  digits (x % base) :: if x / base = 0 then [] else digitLoop base hb (x / base)
termination_by x
decreasing_by
  apply Nat.div_lt_self _ hb
  apply Nat.pos_of_ne_zero
  rintro rfl
  simp_all

/-- `printint(fd, xx, base, sgn)`; `x = -xx` negates in `int` and converts to `uint`. -/
def printint (xx : Int32) (base : Nat) (hb : 2 ≤ base) (sgn : Bool) : List UInt8 :=
  let neg := sgn && decide (xx < 0)
  let x : UInt32 := if neg then (-xx).toUInt32 else xx.toUInt32
  (digitLoop base hb x.toNat ++ if neg then ['-'.toUInt8] else []).reverse

/-- The loop of `printptr`: `digits[x >> 60]`, then `x <<= 4`. -/
def ptrLoop (x : UInt64) : Nat → List UInt8
  | 0 => []
  | i + 1 => digits (x >>> 60).toNat :: ptrLoop (x <<< 4) i

def printptr (x : UInt64) : List UInt8 := '0'.toUInt8 :: 'x'.toUInt8 :: ptrLoop x 16

/-- An argument of `...`, by the C type it was passed as. -/
inductive Arg
  /-- An `int` or a `uint` (a `char` is passed as an `int`), by its 32 bits. -/
  | int (v : Int32)
  /-- A `uint64`, or a pointer that is not read as a string. -/
  | uint64 (v : UInt64)
  /-- A `char *`: the bytes before its NUL, `none` for the null pointer. -/
  | str (s : Option (List UInt8))

/-- `va_arg(ap, int)` and `va_arg(ap, uint)`. -/
def argInt : List Arg → Option (Int32 × List Arg)
  | .int v :: rest => some (v, rest)
  | _ => none

/-- `va_arg(ap, uint64)`. -/
def argUint64 : List Arg → Option (UInt64 × List Arg)
  | .uint64 v :: rest => some (v, rest)
  | _ => none

/-- `va_arg(ap, char*)`. -/
def argStr : List Arg → Option (Option (List UInt8) × List Arg)
  | .str s :: rest => some (s, rest)
  | _ => none

/-- The bytes of a string literal. -/
def cstr (s : String) : List UInt8 := s.toList.map Char.toUInt8

def nullStr : List UInt8 := cstr "(null)"

/-- The `for(i = 0; fmt[i]; i++)` loop of `vprintf` from `state` (`pct` for `state == '%'`), with
`conv c args` the output of the conversion `%c` and the arguments it leaves. -/
def fmtLoop (conv : UInt8 → List Arg → Option (List UInt8 × List Arg)) :
    List UInt8 → Bool → List Arg → Option (List UInt8)
  | [], _, _ => some []
  | c :: fmt, false, args =>
    if c = '%'.toUInt8 then fmtLoop conv fmt true args else (c :: ·) <$> fmtLoop conv fmt false args
  | c :: fmt, true, args => do
    let (out, rest) ← conv c args
    (out ++ ·) <$> fmtLoop conv fmt false rest

/-- The conversions of `vprintf`. -/
def conv (c : UInt8) (args : List Arg) : Option (List UInt8 × List Arg) :=
  if c = 'd'.toUInt8 then (argInt args).map fun (v, rest) => (printint v 10 (by norm_num) true, rest)
  -- `printint(fd, va_arg(ap, uint64), 10, 0)` passes the `uint64` as an `int`
  else if c = 'l'.toUInt8 then
    (argUint64 args).map fun (v, rest) => (printint v.toUInt32.toInt32 10 (by norm_num) false, rest)
  else if c = 'x'.toUInt8 then (argInt args).map fun (v, rest) => (printint v 16 (by norm_num) false, rest)
  else if c = 'p'.toUInt8 then (argUint64 args).map fun (v, rest) => (printptr v, rest)
  else if c = 's'.toUInt8 then (argStr args).map fun (s, rest) => (s.getD nullStr, rest)
  -- `putc(fd, va_arg(ap, uint))` stores the `uint` in a `char`
  else if c = 'c'.toUInt8 then (argInt args).map fun (v, rest) => ([v.toUInt32.toUInt8], rest)
  else if c = '%'.toUInt8 then some ([c], args)
  else some (['%'.toUInt8, c], args)

/-- `vprintf(fd, fmt, ap)`, from `state = 0`. -/
def vprintf (fmt : List UInt8) (args : List Arg) : Option (List UInt8) := fmtLoop conv fmt false args

section Spec

/-- `n` in base `base`, most significant digit first, and `0` as one digit. -/
def showNat (base n : Nat) : List UInt8 :=
  if n = 0 then [digits 0] else ((Nat.digits base n).map digits).reverse

def showInt (i : Int) : List UInt8 :=
  if i < 0 then '-'.toUInt8 :: showNat 10 i.natAbs else showNat 10 i.toNat

/-- The sixteen hexadecimal digits of `x`, most significant first. -/
def hex16 (x : UInt64) : List UInt8 := (List.range 16).map fun k => digits (x.toNat / 16 ^ (15 - k) % 16)

/-- What each conversion is meant to print, with `long` for `%l`. -/
def convSpec (long : UInt64 → List UInt8) (c : UInt8) (args : List Arg) : Option (List UInt8 × List Arg) :=
  if c = 'd'.toUInt8 then (argInt args).map fun (v, rest) => (showInt v.toInt, rest)
  else if c = 'l'.toUInt8 then (argUint64 args).map fun (v, rest) => (long v, rest)
  else if c = 'x'.toUInt8 then (argInt args).map fun (v, rest) => (showNat 16 v.toUInt32.toNat, rest)
  else if c = 'p'.toUInt8 then (argUint64 args).map fun (v, rest) => ('0'.toUInt8 :: 'x'.toUInt8 :: hex16 v, rest)
  else if c = 's'.toUInt8 then (argStr args).map fun (s, rest) => (s.getD nullStr, rest)
  else if c = 'c'.toUInt8 then (argInt args).map fun (v, rest) => ([v.toUInt32.toUInt8], rest)
  else if c = '%'.toUInt8 then some ([c], args)
  else some (['%'.toUInt8, c], args)

/-- The output of a format string, `long` printing `%l`. -/
def format (long : UInt64 → List UInt8) (fmt : List UInt8) (args : List Arg) : Option (List UInt8) :=
  fmtLoop (convSpec long) fmt false args

end Spec

section Digits

variable {base : Nat} (hb : 2 ≤ base)

theorem digitLoop_eq (x : Nat) :
    digitLoop base hb x = if x = 0 then [digits 0] else (Nat.digits base x).map digits := by
  induction x using Nat.strong_induction_on with
  | _ x ih =>
    rw [digitLoop]
    by_cases hx : x = 0
    · subst hx
      simp
    · have hpos : 0 < x := Nat.pos_of_ne_zero hx
      rw [if_neg hx, Nat.digits_def' (by omega) hpos, List.map_cons]
      by_cases hq : x / base = 0
      · rw [if_pos hq, hq, Nat.digits_zero, List.map_nil]
      · rw [if_neg hq, ih (x / base) (Nat.div_lt_self hpos hb), if_neg hq]

theorem reverse_digitLoop (x : Nat) : (digitLoop base hb x).reverse = showNat base x := by
  rw [digitLoop_eq, showNat]
  split_ifs <;> rfl

end Digits

theorem toUInt32_toNat (v : Int32) :
    (v.toUInt32.toNat : Int) = if v.toInt < 0 then v.toInt + 2 ^ 32 else v.toInt := by
  have hnat : v.toUInt32.toNat = v.toBitVec.toNat := by
    rw [← UInt32.toNat_toBitVec, Int32.toBitVec_toUInt32]
  have hint := BitVec.toInt_eq_toNat_cond v.toBitVec
  have hlt := v.toBitVec.isLt
  rw [Int32.toInt_toBitVec] at hint
  rw [hnat]
  split_ifs at hint ⊢ <;> omega

/-- `x = -xx` at a negative `xx`, `INT_MIN` included, is its absolute value. -/
theorem neg_toUInt32_toNat {v : Int32} (h : v < 0) : (-v).toUInt32.toNat = v.toInt.natAbs := by
  have hneg : v.toInt < 0 := Int32.lt_iff_toInt_lt.mp h
  have hv := toUInt32_toNat v
  have hmin := Int32.le_toInt v
  have hnat : (-v).toUInt32.toNat = (2 ^ 32 - v.toUInt32.toNat) % 2 ^ 32 := by
    rw [← UInt32.toNat_toBitVec, Int32.toBitVec_toUInt32, Int32.toBitVec_neg, BitVec.toNat_neg,
      ← Int32.toBitVec_toUInt32, UInt32.toNat_toBitVec]
  rw [if_pos hneg] at hv
  rw [hnat]
  omega

theorem printint_signed (v : Int32) : printint v 10 (by norm_num) true = showInt v.toInt := by
  by_cases hneg : v < 0
  · have hlt : v.toInt < 0 := Int32.lt_iff_toInt_lt.mp hneg
    have habs := neg_toUInt32_toNat hneg
    simp only [printint, hneg, decide_true, Bool.and_self, if_true, List.reverse_append,
      List.reverse_singleton, List.singleton_append, reverse_digitLoop, habs, showInt, if_pos hlt]
  · have hge : ¬v.toInt < 0 := fun h => hneg (Int32.lt_iff_toInt_lt.mpr h)
    have hv := toUInt32_toNat v
    rw [if_neg hge] at hv
    have hnat : v.toUInt32.toNat = v.toInt.toNat := by omega
    simp only [printint, hneg, decide_false, Bool.and_false, Bool.false_eq_true, if_false,
      List.append_nil, reverse_digitLoop, hnat, showInt, if_neg hge]

theorem printint_unsigned (v : Int32) (hb : 2 ≤ base) :
    printint v base hb false = showNat base v.toUInt32.toNat := by
  simp only [printint, Bool.false_and, Bool.false_eq_true, if_false, List.append_nil, reverse_digitLoop]

/-- The top nibble of `x` after `k` shifts by four is digit `15 - k` of `x` in base `16`. -/
theorem nibble_eq (N : Nat) {k : Nat} (hk : k < 16) : N * 16 ^ k % 2 ^ 64 / 2 ^ 60 = N / 16 ^ (15 - k) % 16 := by
  have h64 : 2 ^ 64 = 16 ^ (15 - k) * 16 * 16 ^ k := by
    rw [← pow_succ, ← pow_add, show 15 - k + 1 + k = 16 by omega]
    norm_num
  have h60 : 2 ^ 60 = 16 ^ (15 - k) * 16 ^ k := by
    rw [← pow_add, show 15 - k + k = 15 by omega]
    norm_num
  rw [h64, h60, Nat.mul_mod_mul_right, Nat.mul_div_mul_right _ _ (by positivity), Nat.mod_mul_right_div_self]

/-- The loop of `printptr` prints the top nibble of `x` after each of its shifts. -/
theorem ptrLoop_eq : ∀ (n : Nat) (x : UInt64),
    ptrLoop x n = (List.range n).map fun k => digits (x.toNat * 16 ^ k % 2 ^ 64 / 2 ^ 60)
  | 0, _ => rfl
  | n + 1, x => by
    have hshift : (x <<< 4).toNat = x.toNat * 16 % 2 ^ 64 := by
      rw [UInt64.toNat_shiftLeft, Nat.shiftLeft_eq]
      rfl
    have htop : (x >>> 60).toNat = x.toNat * 16 ^ 0 % 2 ^ 64 / 2 ^ 60 := by
      rw [UInt64.toNat_shiftRight, Nat.shiftRight_eq_div_pow, pow_zero, Nat.mul_one,
        Nat.mod_eq_of_lt x.toNat_lt]
      rfl
    rw [ptrLoop, ptrLoop_eq n, List.range_succ_eq_map, List.map_cons, List.map_map, htop, hshift]
    congr 1
    apply List.map_congr_left
    intro k _
    rw [Function.comp_apply, Nat.mod_mul_mod, Nat.mul_assoc, ← pow_succ']

theorem printptr_eq (x : UInt64) : printptr x = '0'.toUInt8 :: 'x'.toUInt8 :: hex16 x := by
  rw [printptr, ptrLoop_eq, hex16]
  congr 2
  apply List.map_congr_left
  intro k hk
  rw [nibble_eq _ (List.mem_range.mp hk)]

/-- What `%l` prints: its argument modulo `2^32`, in decimal. -/
def longPrinted (v : UInt64) : List UInt8 := showNat 10 (v.toNat % 2 ^ 32)

/-- Every conversion but `%l` prints what it is meant to. -/
theorem conv_eq_convSpec : conv = convSpec longPrinted := by
  funext c args
  have hlong : ∀ v : UInt64, printint v.toUInt32.toInt32 10 (by norm_num) false = longPrinted v := by
    intro v
    rw [printint_unsigned, UInt32.toUInt32_toInt32, UInt64.toNat_toUInt32, longPrinted]
  simp only [conv, convSpec, printint_signed, printint_unsigned, printptr_eq, hlong]

theorem vprintf_eq_format (fmt : List UInt8) (args : List Arg) :
    vprintf fmt args = format longPrinted fmt args := by
  rw [vprintf, format, conv_eq_convSpec]

/-- A decimal numeral read back. -/
theorem ofDigits_showNat (n : Nat) :
    Nat.ofDigits 10 ((showNat 10 n).reverse.map fun u => u.toNat - '0'.toNat) = n := by
  have hdigit : ∀ d < 10, (digits d).toNat - '0'.toNat = d := by
    intro d hd
    rw [digits, if_pos hd, UInt8.toNat_ofNat', Nat.mod_eq_of_lt (by simp; omega)]
    simp
  rw [showNat]
  split_ifs with hn
  · subst hn
    decide
  · rw [List.reverse_reverse, List.map_map]
    have hmap : List.map ((fun u : UInt8 => u.toNat - '0'.toNat) ∘ digits) (Nat.digits 10 n) = Nat.digits 10 n := by
      rw [List.map_congr_left (g := id) ?_, List.map_id]
      intro d hd
      exact hdigit d (Nat.digits_lt_base (by norm_num) hd)
    rw [hmap, Nat.ofDigits_digits]

/-- `%l` prints its argument right exactly when it is below `2^32`. -/
theorem longPrinted_eq_iff (v : UInt64) : longPrinted v = showNat 10 v.toNat ↔ v.toNat < 2 ^ 32 := by
  constructor
  · intro h
    have hback := congrArg (fun l => Nat.ofDigits 10 (l.reverse.map fun u => u.toNat - '0'.toNat)) h
    simp only [longPrinted, ofDigits_showNat] at hback
    rw [← hback]
    exact Nat.mod_lt _ (by norm_num)
  · intro h
    rw [longPrinted, Nat.mod_eq_of_lt h]

/-- `printf("%l", 2^32)` prints `0`, not `4294967296`. -/
theorem printf_long_truncated :
    vprintf (cstr "%l") [.uint64 (2 ^ 32)] = some (cstr "0") ∧
      format (fun v => showNat 10 v.toNat) (cstr "%l") [.uint64 (2 ^ 32)] = some (cstr "4294967296") := by
  rw [vprintf_eq_format]
  constructor
  · decide
  · decide

end Xv6.User.Printf
