import Mathlib.Data.Nat.Digits.Defs
import RiscvKernel.Console

/-!
# Formatted output

`printint` with its buffer of 20 characters, of the kernel's `printf.c` and of the user library's,
and the user library's `vprintf`. The kernel's `vprintf` is in `RiscvKernel.Console`. Formats are
described by the pieces they are built from, numbers by their usual notation.

The arguments are the words of the argument list. An `int` is the low half of its word.
-/

namespace RiscvKernel.Print

open Console (cstr argInt)
open List (append_assoc length_append length_map map_append map_id mem_cons_self singleton_append)

/-! ## Numbers in a buffer -/

/-- `buf[i++] = c`, for a buffer that holds `i` characters, latest first. There is no result if
the character would be stored behind the 20 bytes of the buffer. -/
def push (buf : List UInt8) (c : UInt8) : Option (List UInt8) :=
  if buf.length < 20 then some (c :: buf) else none

/-- The loop `do … while((x /= base) != 0)` of both `printint`; `fuel` bounds its rounds. -/
def fill (digits : List UInt8) (base : ℕ) : ℕ → ℕ → List UInt8 → Option (List UInt8)
  | 0, _, _ => none
  | fuel + 1, x, buf => do
    let buf ← push buf (digits.getD (x % base) 0)
    if x / base = 0 then return buf else fill digits base fuel (x / base) buf

/-- `digits` of the kernel. -/
def kernelDigits : List UInt8 := cstr "0123456789abcdef"

/-- `digits` of the user library. -/
def userDigits : List UInt8 := cstr "0123456789ABCDEF"

/-- `printint` of the kernel: the characters it prints. The sign does not go to the buffer. -/
def kernelPrintint (val : ℤ) (base : ℕ) (sign : Bool) : Option (List UInt8) :=
  if sign && val < 0 then do
    let buf ← fill kernelDigits base 64 ((-val) % 2 ^ 64).toNat []
    return cstr "-" ++ buf
  else fill kernelDigits base 64 (val % 2 ^ 64).toNat []

/-- `printint` of the user library. -/
def printint (xx : ℤ) (base : ℕ) (sgn : Bool) : Option (List UInt8) :=
  if sgn && xx < 0 then do
    let buf ← fill userDigits base 64 ((-xx) % 2 ^ 64).toNat []
    push buf 45
  else fill userDigits base 64 (xx % 2 ^ 64).toNat []

/-! ## `vprintf` of the user library -/

/-- The loop of `printptr`. -/
def printptrFrom : ℕ → ℕ → List UInt8
  | 0, _ => []
  | k + 1, x => userDigits.getD (x / 2 ^ 60) 0 :: printptrFrom k (x * 16 % 2 ^ 64)

/-- `printptr`. -/
def printptr (x : ℕ) : List UInt8 := cstr "0x" ++ printptrFrom 16 x

/-- An argument taken as a `long long`. -/
def argLong (w : ℕ) : ℤ :=
  if w % 2 ^ 64 < 2 ^ 63 then (w % 2 ^ 64 : ℕ) else (w % 2 ^ 64 : ℕ) - 2 ^ 64

/-- What a conversion prints, whether it uses the next argument and how many characters of the
format it skips. -/
structure Conversion where
  text : List UInt8
  used : Bool
  skip : ℕ

/-- The chain of tests behind a `%`: `c0` is the character there, `c1` and `c2` the next two. -/
def convert (strings : ℕ → List UInt8) (c0 c1 c2 : UInt8) (w : ℕ) : Option Conversion :=
  let number (xx : ℤ) (base : ℕ) (sgn : Bool) (skip : ℕ) : Option Conversion := do
    return ⟨← printint xx base sgn, true, skip⟩
  if c0 = 100 then number (argInt w) 10 true 0
  else if c0 = 108 ∧ c1 = 100 then number (argLong w) 10 true 1
  else if c0 = 108 ∧ c1 = 108 ∧ c2 = 100 then number (argLong w) 10 true 2
  else if c0 = 117 then number (w % 2 ^ 32 : ℕ) 10 false 0
  else if c0 = 108 ∧ c1 = 117 then number (argLong w) 10 false 1
  else if c0 = 108 ∧ c1 = 108 ∧ c2 = 117 then number (argLong w) 10 false 2
  else if c0 = 120 then number (w % 2 ^ 32 : ℕ) 16 false 0
  else if c0 = 108 ∧ c1 = 120 then number (argLong w) 16 false 1
  else if c0 = 108 ∧ c1 = 108 ∧ c2 = 120 then number (argLong w) 16 false 2
  else if c0 = 112 then some ⟨printptr (w % 2 ^ 64), true, 0⟩
  else if c0 = 99 then some ⟨[UInt8.ofNat w], true, 0⟩
  else if c0 = 115 then some ⟨if w = 0 then cstr "(null)" else strings w, true, 0⟩
  else if c0 = 37 then some ⟨[37], false, 0⟩
  else some ⟨[37, c0], false, 0⟩

/-- `vprintf` of the user library: the characters it writes. `skip` characters of the format are
still to be passed over, and `state` says whether a `%` was read. -/
def vprintf (strings : ℕ → List UInt8) : ℕ → Bool → List UInt8 → List ℕ → Option (List UInt8)
  | _, _, [], _ => some []
  | skip + 1, state, _ :: rest, args => vprintf strings skip state rest args
  | 0, state, c0 :: rest, args =>
    if c0 = 0 then some []
    else if state = false then
      if c0 = 37 then vprintf strings 0 true rest args
      else do
        let more ← vprintf strings 0 false rest args
        return c0 :: more
    else do
      let c1 := rest.headD 0
      let c2 := if c1 = 0 then 0 else rest.tail.headD 0
      let out ← convert strings c0 c1 c2 (args.headD 0)
      let more ← vprintf strings out.skip false rest (if out.used then args.tail else args)
      return out.text ++ more

/-! ## Formats -/

/-- A piece of a format: an ordinary character or a directive. -/
inductive Piece where
  | lit (c : UInt8)
  | dec
  | hex
  | str
  | chr
  | percent

/-- How a piece is written in a format. -/
def Piece.text : Piece → List UInt8
  | .lit c => [c]
  | .dec => cstr "%d"
  | .hex => cstr "%x"
  | .str => cstr "%s"
  | .chr => cstr "%c"
  | .percent => cstr "%%"

/-- An ordinary character is neither a `%` nor the end of the format. -/
def Piece.Ordinary : Piece → Prop
  | .lit c => c ≠ 0 ∧ c ≠ 37
  | _ => True

/-- The piece takes an argument. -/
def Piece.takes : Piece → Bool
  | .lit _ | .percent => false
  | _ => true

/-- A format, with its terminating NUL. -/
def text (ps : List Piece) : List UInt8 := ps.flatMap Piece.text ++ [0]

/-- The notation of a number. -/
def numeral (base n : ℕ) : List UInt8 := (Nat.toDigits base n).map fun c => UInt8.ofNat c.toNat

/-- The decimal notation of a signed number. -/
def decimal (z : ℤ) : List UInt8 :=
  if z < 0 then cstr "-" ++ numeral 10 z.natAbs else numeral 10 z.natAbs

/-- A hexadecimal digit in upper case. -/
def upper (c : UInt8) : UInt8 := if 97 ≤ c ∧ c ≤ 102 then c - 32 else c

/-- What a piece stands for, given its argument and the form of the hexadecimal digits. -/
def Piece.shown (strings : ℕ → List UInt8) (form : UInt8 → UInt8) (w : ℕ) : Piece → List UInt8
  | .lit c => [c]
  | .dec => decimal (argInt w)
  | .hex => (numeral 16 (w % 2 ^ 32)).map form
  | .str => if w = 0 then cstr "(null)" else strings w
  | .chr => [UInt8.ofNat w]
  | .percent => [37]

/-- What the kernel prints for a piece: `%x` takes its argument as a signed number. -/
def Piece.kernelShown (strings : ℕ → List UInt8) (w : ℕ) : Piece → List UInt8
  | .hex => numeral 16 (argInt w % 2 ^ 64).toNat
  | p => p.shown strings id w

/-- A format whose pieces stand for `shown` of their arguments. -/
def render (shown : ℕ → Piece → List UInt8) : List Piece → List ℕ → List UInt8
  | [], _ => []
  | p :: ps, args =>
    shown (args.headD 0) p ++ render shown ps (if p.takes then args.tail else args)

/-- The arguments of the directives `%x`. -/
def hexWords : List Piece → List ℕ → List ℕ
  | [], _ => []
  | .hex :: ps, args => args.headD 0 :: hexWords ps args.tail
  | p :: ps, args => hexWords ps (if p.takes then args.tail else args)

/-! ## Digits -/

section Digits

variable {base x k fuel : ℕ} {digits buf : List UInt8} {f : UInt8 → UInt8}

/-- The character of a digit. -/
def digit (d : ℕ) : UInt8 := UInt8.ofNat d.digitChar.toNat

/-- One digit. -/
theorem numeral_of_lt (hx : x < base) : numeral base x = [digit x] := by
  rw [numeral, Nat.toDigits_of_lt_base hx]
  rfl

/-- The last digit. -/
theorem numeral_of_le (hb : 1 < base) (hx : base ≤ x) :
    numeral base x = numeral base (x / base) ++ [digit (x % base)] := by
  rw [numeral, numeral, Nat.toDigits_of_base_le hb hx, map_append]
  rfl

/-- The loop of `printint` leaves the notation of the number in the buffer, if the buffer has
room for it. -/
theorem fill_eq (hb : 1 < base) (hdigits : ∀ d < base, digits.getD d 0 = f (digit d))
    (hx : x < base ^ (k + 1)) (hfuel : k < fuel) (hroom : buf.length + k < 20) :
    fill digits base fuel x buf = some ((numeral base x).map f ++ buf) := by
  induction k generalizing x fuel buf with
  | zero =>
    obtain ⟨fuel, rfl⟩ := Nat.exists_eq_add_of_lt hfuel
    rw [Nat.zero_add, Nat.pow_one] at hx
    rw [fill, push, if_pos (by omega), numeral_of_lt hx, hdigits _ (Nat.mod_lt _ (by omega)),
      Nat.mod_eq_of_lt hx]
    simp [Nat.div_eq_of_lt hx]
  | succ k ih =>
    obtain ⟨fuel, rfl⟩ : ∃ f, fuel = f + 1 := ⟨fuel - 1, by omega⟩
    rw [fill, push, if_pos (by omega), hdigits _ (Nat.mod_lt _ (by omega))]
    by_cases hlt : x < base
    · rw [numeral_of_lt hlt, Nat.mod_eq_of_lt hlt]
      simp [Nat.div_eq_of_lt hlt]
    · have hle : base ≤ x := Nat.le_of_not_lt hlt
      have hne : x / base ≠ 0 := (Nat.div_pos hle (by omega)).ne'
      have hdiv : x / base < base ^ (k + 1) :=
        Nat.div_lt_of_lt_mul (by rwa [← Nat.pow_succ'])
      simp only [Option.bind_eq_bind, Option.bind_some, if_neg hne]
      rw [ih hdiv (by omega) (by simp only [List.length_cons]; omega), numeral_of_le hb hle]
      simp

/-- The digits that the console prints. -/
theorem digitsFrom_eq (hb : 1 < base) (hb' : base ≤ 16) (hx : x < base ^ (k + 1))
    (hfuel : k < fuel) :
    Console.digitsFrom base fuel x buf = numeral base x ++ buf := by
  have hdigit : ∀ d < 16, UInt8.ofNat (if d < 10 then 48 + d else 87 + d) = digit d := by decide
  induction k generalizing x fuel buf with
  | zero =>
    obtain ⟨fuel, rfl⟩ := Nat.exists_eq_add_of_lt hfuel
    rw [Nat.zero_add, Nat.pow_one] at hx
    simp only [Console.digitsFrom, Nat.zero_add, Nat.mod_eq_of_lt hx, Nat.div_eq_of_lt hx,
      if_true, hdigit x (by omega), numeral_of_lt hx, singleton_append]
  | succ k ih =>
    obtain ⟨fuel, rfl⟩ : ∃ f, fuel = f + 1 := ⟨fuel - 1, by omega⟩
    simp only [Console.digitsFrom, hdigit _ ((Nat.mod_lt x (by omega)).trans_le hb')]
    by_cases hlt : x < base
    · rw [Nat.div_eq_of_lt hlt, if_pos rfl, Nat.mod_eq_of_lt hlt, numeral_of_lt hlt,
        singleton_append]
    · have hle : base ≤ x := Nat.le_of_not_lt hlt
      have hne : x / base ≠ 0 := (Nat.div_pos hle (by omega)).ne'
      have hdiv : x / base < base ^ (k + 1) :=
        Nat.div_lt_of_lt_mul (by rwa [← Nat.pow_succ'])
      rw [if_neg hne, ih hdiv (by omega), numeral_of_le hb hle, append_assoc,
        singleton_append]

/-- A bound on the number of digits. -/
theorem length_numeral_le (hx : x < base ^ (k + 1)) : (numeral base x).length ≤ k + 1 := by
  rw [numeral, length_map]
  exact Nat.toDigits_length base x (k + 1) (Nat.succ_pos k) hx

/-- The number of digits. -/
theorem length_numeral (hb : 1 < base) (hle : base ^ k ≤ x) (hx : x < base ^ (k + 1)) :
    (numeral base x).length = k + 1 := by
  induction k generalizing x with
  | zero =>
    rw [Nat.zero_add, Nat.pow_one] at hx
    rw [numeral_of_lt hx]
    rfl
  | succ k ih =>
    have hpos : 0 < base := by omega
    have hbase : base ≤ x := (Nat.le_self_pow (Nat.succ_ne_zero k) base).trans hle
    have hdiv : base ^ k ≤ x / base := by
      rw [Nat.le_div_iff_mul_le hpos, ← Nat.pow_succ]
      exact hle
    have hdiv' : x / base < base ^ (k + 1) := Nat.div_lt_of_lt_mul (by rwa [← Nat.pow_succ'])
    rw [numeral_of_le hb hbase, length_append, ih hdiv hdiv']
    rfl

end Digits

/-! ## `printint` -/

section Printint

/-- A base in which 64 bits have at most 20 digits, and 63 bits at most 19. -/
structure Fits (base : ℕ) : Prop where
  one_lt : 1 < base
  le_sixteen : base ≤ 16
  unsigned : 2 ^ 64 ≤ base ^ 20
  signed : 2 ^ 63 < base ^ 19

theorem fits_ten : Fits 10 := by constructor <;> norm_num

theorem fits_sixteen : Fits 16 := by constructor <;> norm_num

variable {base : ℕ} {val : ℤ} {digits : List UInt8} {f : UInt8 → UInt8}

theorem toNat_emod_lt (z : ℤ) : (z % 2 ^ 64).toNat < 2 ^ 64 := by omega

/-- The absolute value, as `-val` computes it; also of the most negative number. -/
theorem neg_emod (hval : -2 ^ 63 ≤ val) (hneg : val < 0) :
    ((-val) % 2 ^ 64).toNat = val.natAbs := by
  omega

/-- The characters of `Console.printint` are the notation of the number. -/
theorem printint_numeral (hb : Fits base) (hval : -2 ^ 63 ≤ val) (sign : Bool) :
    Console.printint val base sign =
      if sign && val < 0 then cstr "-" ++ numeral base val.natAbs
      else numeral base (val % 2 ^ 64).toNat := by
  have hdigits : ∀ x < 2 ^ 64, Console.digitsFrom base 64 x [] = numeral base x := by
    intro x hx
    rw [digitsFrom_eq (k := 19) hb.one_lt hb.le_sixteen (hx.trans_le hb.unsigned) (by omega),
      List.append_nil]
  rw [Console.printint, hdigits _ (toNat_emod_lt _), hdigits _ (toNat_emod_lt _)]
  split
  · rename_i hneg
    rw [neg_emod hval (by simpa using (Bool.and_eq_true_iff.1 hneg).2)]
  · rfl

/-- The digits of a 64-bit number fit into the buffer. -/
theorem fill_unsigned (hb : Fits base) (hdigits : ∀ d < base, digits.getD d 0 = f (digit d))
    (z : ℤ) :
    fill digits base 64 (z % 2 ^ 64).toNat [] =
      some ((numeral base (z % 2 ^ 64).toNat).map f) := by
  rw [fill_eq (k := 19) hb.one_lt hdigits ((toNat_emod_lt z).trans_le hb.unsigned) (by omega)
    (by simp), List.append_nil]

/-- `printint` of the kernel stays inside its buffer. -/
theorem kernelPrintint_eq (hb : Fits base)
    (hdigits : ∀ d < base, kernelDigits.getD d 0 = digit d) (hval : -2 ^ 63 ≤ val) (sign : Bool) :
    kernelPrintint val base sign = some (Console.printint val base sign) := by
  rw [kernelPrintint, fill_unsigned (f := id) hb hdigits, fill_unsigned (f := id) hb hdigits,
    printint_numeral hb hval, map_id, map_id]
  split
  · rename_i hneg
    rw [neg_emod hval (by simpa using (Bool.and_eq_true_iff.1 hneg).2)]
    rfl
  · rfl

/-- `printint` of the user library stays inside its buffer, the sign included: a number with a
sign has at most 19 digits. -/
theorem printint_eq (hb : Fits base) (hdigits : ∀ d < base, userDigits.getD d 0 = f (digit d))
    (hf : f 45 = 45) (hval : -2 ^ 63 ≤ val) (sgn : Bool) :
    printint val base sgn = some ((Console.printint val base sgn).map f) := by
  rw [printint, fill_unsigned hb hdigits, fill_unsigned hb hdigits, printint_numeral hb hval]
  split
  · rename_i hneg
    have habs : ((-val) % 2 ^ 64).toNat = val.natAbs :=
      neg_emod hval (by simpa using (Bool.and_eq_true_iff.1 hneg).2)
    have hlt : val.natAbs < base ^ (18 + 1) := lt_of_le_of_lt (by omega) hb.signed
    have hlen := length_numeral_le hlt
    rw [habs, Option.bind_eq_bind, Option.bind_some, push,
      if_pos (by rw [length_map]; omega), map_append]
    congr 1
    simp [cstr, hf]
  · rfl

theorem kernelDigits_eq : ∀ d < 16, kernelDigits.getD d 0 = digit d := by decide

theorem userDigits_ten : ∀ d < 10, userDigits.getD d 0 = id (digit d) := by decide

theorem userDigits_sixteen : ∀ d < 16, userDigits.getD d 0 = upper (digit d) := by decide

/-- A number with a sign, in base 10. -/
theorem printint_ten (hval : -2 ^ 63 ≤ val) (hval' : val < 2 ^ 63) :
    Console.printint val 10 true = decimal val := by
  rw [printint_numeral fits_ten hval, decimal, Bool.true_and]
  by_cases hneg : val < 0
  · rw [if_pos hneg, if_pos (by simpa using hneg)]
  · rw [if_neg hneg, if_neg (by simpa using hneg)]
    congr 1
    omega

/-- A number in base 16, printed without a sign. -/
theorem printint_sixteen (hval : -2 ^ 63 ≤ val) :
    Console.printint val 16 false = numeral 16 (val % 2 ^ 64).toNat := by
  rw [printint_numeral fits_sixteen hval, Bool.false_and, if_neg Bool.false_ne_true]

end Printint

/-! ## The two `vprintf` -/

section Vprintf

variable {strings : ℕ → List UInt8} {ps : List Piece} {args : List ℕ}

/-- An argument is a `long long`. -/
theorem argInt_bounds (w : ℕ) : -2 ^ 63 ≤ argInt w ∧ argInt w < 2 ^ 63 := by
  unfold argInt
  split <;> omega

/-- The kernel's `vprintf` on a directive. -/
theorem format_directive {c : UInt8} (hc : c ≠ 0) (rest : List UInt8) :
    Console.format strings (37 :: c :: rest) args =
      (Console.convert strings c (args.headD 0)).1 ++
        Console.format strings rest
          (if (Console.convert strings c (args.headD 0)).2 then args.tail else args) := by
  rw [Console.format, if_neg (by decide), if_neg (by decide), if_neg hc]

/-- The kernel's `vprintf` on an ordinary character. -/
theorem format_lit {c : UInt8} (h0 : c ≠ 0) (hc : c ≠ 37) {rest : List UInt8} (hrest : rest ≠ []) :
    Console.format strings (c :: rest) args = c :: Console.format strings rest args := by
  obtain ⟨d, rest, rfl⟩ := List.exists_cons_of_ne_nil hrest
  rw [Console.format, if_neg h0, if_pos hc]

/-- The text of a directive. -/
theorem text_cons (p : Piece) (ps : List Piece) : text (p :: ps) = p.text ++ text ps := by
  rw [text, text, List.flatMap_cons, append_assoc]

theorem text_ne_nil (ps : List Piece) : text ps ≠ [] := by simp [text]

/-- The kernel prints its pieces one after the other. -/
theorem format_text (hps : ∀ p ∈ ps, p.Ordinary) :
    Console.format strings (text ps) args = render (Piece.kernelShown strings) ps args := by
  induction ps generalizing args with
  | nil => simp [text, render, Console.format]
  | cons p ps ih =>
    have hps' : ∀ q ∈ ps, q.Ordinary := fun q hq => hps q (List.mem_cons_of_mem p hq)
    rw [text_cons]
    cases p with
    | lit c =>
      obtain ⟨h0, hc⟩ : c ≠ 0 ∧ c ≠ 37 := hps _ (mem_cons_self ..)
      exact (format_lit h0 hc (text_ne_nil ps)).trans (congrArg (c :: ·) (ih hps'))
    | dec =>
      rw [show Piece.dec.text ++ text ps = 37 :: 100 :: text ps from rfl,
        format_directive (by decide)]
      simp only [Console.convert, if_true]
      rw [printint_ten (argInt_bounds _).1 (argInt_bounds _).2]
      exact congrArg (_ ++ ·) (ih hps')
    | hex =>
      rw [show Piece.hex.text ++ text ps = 37 :: 120 :: text ps from rfl,
        format_directive (by decide)]
      simp only [Console.convert, if_true]
      rw [if_neg (by decide), printint_sixteen (argInt_bounds _).1]
      exact congrArg (_ ++ ·) (ih hps')
    | str =>
      rw [show Piece.str.text ++ text ps = 37 :: 115 :: text ps from rfl,
        format_directive (by decide)]
      exact congrArg (_ ++ ·) (ih hps')
    | chr =>
      rw [show Piece.chr.text ++ text ps = 37 :: 99 :: text ps from rfl,
        format_directive (by decide)]
      exact congrArg (_ ++ ·) (ih hps')
    | percent =>
      rw [show Piece.percent.text ++ text ps = 37 :: 37 :: text ps from rfl,
        format_directive (by decide)]
      exact congrArg (_ ++ ·) (ih hps')

/-- An argument of `%x` that is negative as an `int`. -/
def Negative (w : ℕ) : Prop := 2 ^ 31 ≤ w % 2 ^ 32

instance : DecidablePred Negative := fun _ => inferInstanceAs (Decidable (_ ≤ _))

/-- The kernel prints a nonnegative argument of `%x` as it should. -/
theorem kernelShown_hex {w : ℕ} (hw : ¬ Negative w) :
    Piece.hex.kernelShown strings w = Piece.hex.shown strings id w := by
  unfold Negative at hw
  simp only [Piece.kernelShown, Piece.shown, map_id, argInt, if_pos (not_le.mp hw)]
  congr 1
  omega

/-- It prints the 32 ones of the sign of a negative one, which are eight digits. -/
theorem length_kernelShown_hex {w : ℕ} (hw : Negative w) :
    (Piece.hex.kernelShown strings w).length = (Piece.hex.shown strings id w).length + 8 := by
  unfold Negative at hw
  simp only [Piece.kernelShown, Piece.shown, map_id, argInt, if_neg (not_lt.mpr hw)]
  rw [length_numeral (k := 15) (by decide) (by omega) (by omega),
    length_numeral (k := 7) (by decide) (by omega) (by omega)]

/-- How much longer the output of the kernel is than what the format stands for. -/
theorem length_render_kernel (ps : List Piece) (args : List ℕ) :
    (render (Piece.kernelShown strings) ps args).length =
      (render (Piece.shown strings id) ps args).length +
        8 * (hexWords ps args).countP (Negative ·) := by
  induction ps generalizing args with
  | nil => rfl
  | cons p ps ih =>
    rw [render, render, length_append, length_append, ih]
    cases p with
    | hex =>
      simp only [hexWords, Piece.takes, if_true]
      by_cases hw : Negative (args.headD 0)
      · rw [length_kernelShown_hex hw, List.countP_cons_of_pos (by simpa using hw)]
        omega
      · rw [kernelShown_hex hw, List.countP_cons_of_neg (by simpa using hw)]
        omega
    | lit c => exact (Nat.add_assoc _ _ _).symm
    | dec => exact (Nat.add_assoc _ _ _).symm
    | str => exact (Nat.add_assoc _ _ _).symm
    | chr => exact (Nat.add_assoc _ _ _).symm
    | percent => exact (Nat.add_assoc _ _ _).symm

/-- The kernel prints what the format stands for, as long as no argument of `%x` is negative. -/
theorem render_kernel (hx : ∀ w ∈ hexWords ps args, ¬ Negative w) :
    render (Piece.kernelShown strings) ps args = render (Piece.shown strings id) ps args := by
  induction ps generalizing args with
  | nil => rfl
  | cons p ps ih =>
    rw [render, render]
    cases p with
    | hex =>
      rw [kernelShown_hex (hx _ (mem_cons_self ..))]
      exact congrArg (_ ++ ·) (ih fun w h => hx w (List.mem_cons_of_mem _ h))
    | lit c => exact congrArg (_ ++ ·) (ih hx)
    | dec => exact congrArg (_ ++ ·) (ih hx)
    | str => exact congrArg (_ ++ ·) (ih hx)
    | chr => exact congrArg (_ ++ ·) (ih hx)
    | percent => exact congrArg (_ ++ ·) (ih hx)

/-- The user library's `vprintf` on a directive that is one character long. -/
theorem vprintf_directive {c : UInt8} {out more : List UInt8} {used : Bool} {rest : List UInt8}
    (hc : c ≠ 0)
    (hout : ∀ c1 c2, convert strings c c1 c2 (args.headD 0) = some ⟨out, used, 0⟩)
    (hmore : vprintf strings 0 false rest (if used then args.tail else args) = some more) :
    vprintf strings 0 false (37 :: c :: rest) args = some (out ++ more) := by
  rw [vprintf, if_neg (by decide), if_pos rfl, if_pos rfl, vprintf, if_neg hc,
    if_neg (by decide)]
  simp only [hout, Option.bind_eq_bind, Option.bind_some, hmore]
  rfl

/-- The user library prints what the format stands for, with upper case digits. -/
theorem vprintf_text (hps : ∀ p ∈ ps, p.Ordinary) :
    vprintf strings 0 false (text ps) args = some (render (Piece.shown strings upper) ps args) := by
  induction ps generalizing args with
  | nil => rfl
  | cons p ps ih =>
    have hps' : ∀ q ∈ ps, q.Ordinary := fun q hq => hps q (List.mem_cons_of_mem p hq)
    rw [text_cons]
    cases p with
    | lit c =>
      obtain ⟨h0, hc⟩ : c ≠ 0 ∧ c ≠ 37 := hps _ (mem_cons_self ..)
      change vprintf strings 0 false (c :: text ps) args = _
      rw [vprintf, if_neg h0, if_pos rfl, if_neg hc, ih hps']
      rfl
    | dec =>
      apply vprintf_directive (c := 100) (by decide) _ (ih hps')
      intro c1 c2
      have hnum := printint_eq (f := id) fits_ten userDigits_ten rfl
        (argInt_bounds (args.headD 0)).1 true
      rw [map_id, printint_ten (argInt_bounds _).1 (argInt_bounds _).2] at hnum
      simp only [convert, hnum]
      rfl
    | hex =>
      apply vprintf_directive (c := 120) (by decide) _ (ih hps')
      intro c1 c2
      have hpos : -2 ^ 63 ≤ ((args.headD 0 % 2 ^ 32 : ℕ) : ℤ) := by omega
      have hnum := printint_eq fits_sixteen userDigits_sixteen rfl hpos false
      rw [printint_sixteen hpos] at hnum
      have hmod : (((args.headD 0 % 2 ^ 32 : ℕ) : ℤ) % 2 ^ 64).toNat = args.headD 0 % 2 ^ 32 := by
        omega
      rw [hmod] at hnum
      simp only [convert, hnum]
      rfl
    | str => exact vprintf_directive (c := 115) (by decide) (fun _ _ => rfl) (ih hps')
    | chr => exact vprintf_directive (c := 99) (by decide) (fun _ _ => rfl) (ih hps')
    | percent => exact vprintf_directive (c := 37) (by decide) (fun _ _ => rfl) (ih hps')

/-- `consoleputs` sends its characters if the lock is free. -/
theorem consoleputs_eq (cs : List UInt8) {s : Console.State} (hs : s.consLock = false) :
    Console.consoleputs cs s = .ok () { s with uart := cs.reverse ++ s.uart } := by
  induction cs generalizing s with
  | nil => rfl
  | cons c cs ih =>
    have hputc : Console.consoleputc c s = .ok () { s with uart := c :: s.uart } := by
      rw [Console.consoleputc_eq, if_neg (by rw [hs]; decide)]
    rw [Console.consoleputs, Threads.Seq.bind_apply, hputc]
    rw [List.reverse_cons, append_assoc, singleton_append]
    exact ih (s := { s with uart := c :: s.uart }) hs

theorem upper_upper (c : UInt8) : upper (upper c) = upper c := by
  have hall : ∀ n : Fin 256, upper (upper (UInt8.ofNat n)) = upper (UInt8.ofNat n) := by
    decide +kernel
  simpa using hall ⟨c.toNat, c.toNat_lt⟩

/-- The two forms of the digits differ in case only. -/
theorem render_upper (ps : List Piece) (args : List ℕ) :
    (render (Piece.shown strings upper) ps args).map upper =
      (render (Piece.shown strings id) ps args).map upper := by
  induction ps generalizing args with
  | nil => rfl
  | cons p ps ih =>
    rw [render, render, map_append, map_append, ih]
    congr 1
    cases p with
    | hex =>
      simp only [Piece.shown, List.map_map, map_id]
      congr 1
      exact funext upper_upper
    | lit c => rfl
    | dec => rfl
    | str => rfl
    | chr => rfl
    | percent => rfl

/-- The kernel's `vprintf` sends `out` to the console. -/
def KernelPrints (strings : ℕ → List UInt8) (ps : List Piece) (args : List ℕ)
    (out : List UInt8) : Prop :=
  ∀ s : Console.State, s.consLock = false →
    Console.vprintf strings (text ps) args s = .ok () { s with uart := out.reverse ++ s.uart }

/-- The two `vprintf` print the same up to the case of hexadecimal digits. -/
def SameOutput (strings : ℕ → List UInt8) (ps : List Piece) (args : List ℕ) : Prop :=
  ∃ out out', KernelPrints strings ps args out ∧
    vprintf strings 0 false (text ps) args = some out' ∧ out.map upper = out'.map upper

/-- They print what the format stands for. -/
structure Agree (strings : ℕ → List UInt8) (ps : List Piece) (args : List ℕ) : Prop where
  /-- The kernel does. -/
  kernel : KernelPrints strings ps args (render (Piece.shown strings id) ps args)
  /-- The user library does, with digits in upper case. -/
  user : vprintf strings 0 false (text ps) args = some (render (Piece.shown strings upper) ps args)
  /-- And so they print the same. -/
  same : SameOutput strings ps args

/-- What the kernel prints. -/
theorem kernelPrints_text (hps : ∀ p ∈ ps, p.Ordinary) :
    KernelPrints strings ps args (render (Piece.kernelShown strings) ps args) := by
  intro s hs
  rw [Console.vprintf_eq, format_text hps]
  exact consoleputs_eq _ hs

/-- There is one output. -/
theorem KernelPrints.unique {out out' : List UInt8} (h : KernelPrints strings ps args out)
    (h' : KernelPrints strings ps args out') : out = out' := by
  have heq := (h Console.idle rfl).symm.trans (h' Console.idle rfl)
  injection heq with _ hstate
  have huart := congrArg Console.State.uart hstate
  simpa using huart

/-- The outputs have the same length only if no argument of `%x` is negative. -/
theorem SameOutput.nonneg (hps : ∀ p ∈ ps, p.Ordinary) (h : SameOutput strings ps args) :
    ∀ w ∈ hexWords ps args, ¬ Negative w := by
  obtain ⟨out, out', hkernel, huser, hsame⟩ := h
  rw [vprintf_text hps, Option.some_inj] at huser
  rw [hkernel.unique (kernelPrints_text hps), ← huser, render_upper] at hsame
  have hlength := congrArg List.length hsame
  rw [length_map, length_map, length_render_kernel] at hlength
  have hnone : (hexWords ps args).countP (Negative ·) = 0 := by omega
  simpa using List.countP_eq_zero.mp hnone

/-- No argument of `%x` is negative: both print what the format stands for. -/
theorem agree_of_nonneg (hps : ∀ p ∈ ps, p.Ordinary)
    (hx : ∀ w ∈ hexWords ps args, ¬ Negative w) : Agree strings ps args := by
  have hkernel : KernelPrints strings ps args _ := kernelPrints_text hps
  rw [render_kernel hx] at hkernel
  exact ⟨hkernel, vprintf_text hps, _, _, hkernel, vprintf_text hps, (render_upper ps args).symm⟩

/-- The two `vprintf` print what the format stands for exactly when every argument of `%x` is
nonnegative as an `int`, and only then do they print the same up to the case of hexadecimal
digits; and no 64-bit number overflows a buffer of `printint`. -/
theorem printf_agree (strings : ℕ → List UInt8) (ps : List Piece) (args : List ℕ)
    (hps : ∀ p ∈ ps, p.Ordinary) :
    (Agree strings ps args ↔ ∀ w ∈ hexWords ps args, ¬ Negative w) ∧
      (SameOutput strings ps args ↔ ∀ w ∈ hexWords ps args, ¬ Negative w) ∧
      ∀ (val : ℤ) (base : ℕ) (sign : Bool), -2 ^ 63 ≤ val → val < 2 ^ 63 →
        base = 10 ∨ base = 16 →
        kernelPrintint val base sign = some (Console.printint val base sign) ∧
          (printint val base sign).isSome := by
  refine ⟨⟨fun h => h.same.nonneg hps, agree_of_nonneg hps⟩,
    ⟨SameOutput.nonneg hps, fun hx => (agree_of_nonneg hps hx).same⟩, ?_⟩
  intro val base sign hval _ hbase
  rcases hbase with rfl | rfl
  · constructor
    · exact kernelPrintint_eq fits_ten (fun d hd => kernelDigits_eq d (by omega)) hval sign
    · rw [printint_eq (f := id) fits_ten userDigits_ten rfl hval]
      rfl
  · constructor
    · exact kernelPrintint_eq fits_sixteen kernelDigits_eq hval sign
    · rw [printint_eq fits_sixteen userDigits_sixteen rfl hval]
      rfl

/-- A format with every directive; the number is the most negative one. -/
theorem printf_agree_all :
    vprintf (fun _ => cstr "ls") 0 false (text [.dec, .lit 32, .hex, .str, .chr, .percent, .str])
        [2 ^ 31, 171, 4096, 33, 0] = some (cstr "-2147483648 ABls!%(null)") := by
  have hagree := (printf_agree (fun _ => cstr "ls")
    [.dec, .lit 32, .hex, .str, .chr, .percent, .str] [2 ^ 31, 171, 4096, 33, 0]
    (by simp [Piece.Ordinary])).1.mpr (by simp [hexWords, Piece.takes, Negative])
  rw [hagree.user]
  decide +kernel

/-- A negative argument of `%x` is printed by the kernel with the 32 ones of its sign. -/
theorem printf_hex_negative :
    (∀ s : Console.State, s.consLock = false →
      Console.vprintf (fun _ => []) (text [.hex]) [2 ^ 32 - 1] s =
        .ok () { s with uart := (cstr "ffffffffffffffff").reverse ++ s.uart }) ∧
      vprintf (fun _ => []) 0 false (text [.hex]) [2 ^ 32 - 1] = some (cstr "FFFFFFFF") ∧
      render (Piece.shown (fun _ => []) id) [.hex] [2 ^ 32 - 1] = cstr "ffffffff" := by
  refine ⟨?_, by decide +kernel, by decide +kernel⟩
  intro s hs
  rw [Console.vprintf_eq, ← consoleputs_eq _ hs]
  congr 1

end Vprintf

end RiscvKernel.Print
