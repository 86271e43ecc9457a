import Mathlib.Data.List.Basic
import Mathlib.Tactic.Ring

/-!
# Bytes, fixed-width integers and C strings

Little-endian integers (`leEnc` / `leDec`), 32-bit two's complement
(`i32Enc` / `i32Dec`), unsigned 64-bit subtraction (`sub64`), C strings
(`cstr`) and the effect of writing into the front of a buffer whose rest
keeps its earlier content (`blit`).
-/
namespace Mefsc

abbrev Bytes := List UInt8

/-! ## Little-endian integers -/

/-- The low `w` bytes of `n`, least significant first. -/
def leEnc : Nat → Nat → Bytes
  | 0, _ => []
  | w + 1, n => UInt8.ofNat (n % 256) :: leEnc w (n / 256)

def leDec : Bytes → Nat
  | [] => 0
  | b :: bs => b.toNat + 256 * leDec bs

@[simp] theorem leEnc_length (w n : Nat) : (leEnc w n).length = w := by
  induction w generalizing n with
  | zero => rfl
  | succ w ih => simp [leEnc, ih]

theorem leDec_leEnc_mod (w n : Nat) : leDec (leEnc w n) = n % 256 ^ w := by
  induction w generalizing n with
  | zero => simp [leEnc, leDec, Nat.mod_one]
  | succ w ih =>
    have hb : (UInt8.ofNat (n % 256)).toNat = n % 256 := by simp
    rw [leEnc, leDec, ih, hb, Nat.pow_succ', Nat.mod_mul]

theorem leDec_leEnc {w n : Nat} (h : n < 256 ^ w) : leDec (leEnc w n) = n := by
  rw [leDec_leEnc_mod, Nat.mod_eq_of_lt h]

theorem leEnc_leDec (b : Bytes) : leEnc b.length (leDec b) = b := by
  induction b with
  | nil => rfl
  | cons x b ih =>
    have hx : x.toNat < 256 := x.toNat_lt
    have h1 : (x.toNat + 256 * leDec b) % 256 = x.toNat := by omega
    have h2 : (x.toNat + 256 * leDec b) / 256 = leDec b := by omega
    simp only [List.length_cons, leEnc, leDec, h1, h2, ih]
    simp

theorem leDec_lt (b : Bytes) : leDec b < 256 ^ b.length := by
  induction b with
  | nil => simp [leDec]
  | cons x b ih =>
    have hx := x.toNat_lt
    simp only [leDec, List.length_cons, Nat.pow_succ']
    omega

/-! ## 64-bit and 32-bit values -/

/-- `a - b` on `unsigned long long`. -/
def sub64 (a b : Nat) : Nat := (a + 2 ^ 64 - b) % 2 ^ 64

theorem sub64_of_le {a b : Nat} (hb : b ≤ a) (ha : a < 2 ^ 64) : sub64 a b = a - b := by
  unfold sub64; omega

theorem sub64_of_lt {a b : Nat} (hb : a < b) (h : b < 2 ^ 64) : sub64 a b = a + 2 ^ 64 - b := by
  unfold sub64; omega

/-- `++n` on a `size_t` -/
def inc64 (n : Nat) : Nat := if n = 2 ^ 64 - 1 then 0 else n + 1

/-- `--n` on a `size_t` -/
def dec64 (n : Nat) : Nat := if n = 0 then 2 ^ 64 - 1 else n - 1

theorem inc64_lt {n : Nat} (h : n < 2 ^ 64) : inc64 n < 2 ^ 64 := by
  unfold inc64
  split <;> omega

theorem dec64_lt {n : Nat} (h : n < 2 ^ 64) : dec64 n < 2 ^ 64 := by
  unfold dec64
  split <;> omega

/-- Modulo `2 ^ 64` the counters count. -/
theorem inc64_mod {n : Nat} (h : n < 2 ^ 64) : inc64 n = (n + 1) % 2 ^ 64 := by
  unfold inc64
  split <;> omega

theorem dec64_mod {n : Nat} (h : n < 2 ^ 64) : (dec64 n + 1) % 2 ^ 64 = n := by
  unfold dec64
  split <;> omega

def u64Enc (n : Nat) : Bytes := leEnc 8 n

@[simp] theorem u64Enc_length (n : Nat) : (u64Enc n).length = 8 := leEnc_length 8 n

theorem leDec_u64Enc {n : Nat} (h : n < 2 ^ 64) : leDec (u64Enc n) = n :=
  leDec_leEnc (by simpa using h)

/-- The bytes of a C `int`. -/
def i32Enc (i : Int) : Bytes := leEnc 4 (i % 2 ^ 32).toNat

/-- The `int` stored in the first four bytes of a buffer. -/
def i32Dec (b : Bytes) : Int :=
  let n := leDec (b.take 4)
  if n < 2 ^ 31 then n else (n : Int) - 2 ^ 32

@[simp] theorem i32Enc_length (i : Int) : (i32Enc i).length = 4 := leEnc_length 4 _

theorem leDec_i32Enc (i : Int) : (leDec (i32Enc i) : Int) = i % 2 ^ 32 := by
  have h0 : 0 ≤ i % 2 ^ 32 := Int.emod_nonneg _ (by decide)
  have h1 : i % 2 ^ 32 < 2 ^ 32 := Int.emod_lt_of_pos _ (by decide)
  rw [i32Enc, leDec_leEnc (by norm_num; omega)]
  omega

theorem i32Dec_i32Enc_append {i : Int} (lo : -2 ^ 31 ≤ i) (hi : i < 2 ^ 31) (rest : Bytes) :
    i32Dec (i32Enc i ++ rest) = i := by
  have hk := leDec_i32Enc i
  have ht : (i32Enc i ++ rest).take 4 = i32Enc i := List.take_left' (i32Enc_length i)
  simp only [i32Dec, ht]
  split <;> omega

theorem i32Dec_i32Enc {i : Int} (lo : -2 ^ 31 ≤ i) (hi : i < 2 ^ 31) : i32Dec (i32Enc i) = i := by
  simpa using i32Dec_i32Enc_append lo hi []

theorem i32Enc_i32Dec {b : Bytes} (h : b.length = 4) : i32Enc (i32Dec b) = b := by
  have hlt := leDec_lt b
  rw [h] at hlt
  have hk : (i32Dec b % 2 ^ 32).toNat = leDec b := by
    simp only [i32Dec, List.take_of_length_le (Nat.le_of_eq h)]
    split <;> omega
  unfold i32Enc
  rw [hk, ← h, leEnc_leDec]

/-! ## C strings and buffers -/

/-- The C string that starts at the front of a buffer. -/
def cstr : Bytes → Bytes
  | [] => []
  | b :: bs => if b = 0 then [] else b :: cstr bs

theorem cstr_noNul (b : Bytes) : (0 : UInt8) ∉ cstr b := by
  induction b with
  | nil => simp [cstr]
  | cons x b ih =>
    by_cases hx : x = 0
    · simp [cstr, hx]
    · simp [cstr, hx, ih, Ne.symm hx]

theorem cstr_append_noNul {s : Bytes} (hs : (0 : UInt8) ∉ s) (rest : Bytes) :
    cstr (s ++ rest) = s ++ cstr rest := by
  induction s with
  | nil => rfl
  | cons x s ih =>
    simp only [List.mem_cons, not_or] at hs
    simp [cstr, Ne.symm hs.1, ih hs.2]

theorem cstr_append_nul {s : Bytes} (hs : (0 : UInt8) ∉ s) (rest : Bytes) :
    cstr (s ++ 0 :: rest) = s := by
  simp [cstr_append_noNul hs, cstr]

theorem cstr_of_noNul {s : Bytes} (hs : (0 : UInt8) ∉ s) : cstr s = s := by
  simpa [cstr] using cstr_append_noNul hs []

/-- A buffer with a NUL in it is its C string up to there, whatever follows. -/
theorem cstr_append_of_mem {s : Bytes} (hs : (0 : UInt8) ∈ s) (rest : Bytes) :
    cstr (s ++ rest) = cstr s := by
  induction s with
  | nil => simp at hs
  | cons x s ih =>
    by_cases hx : x = 0
    · simp [cstr, hx]
    · have hm : (0 : UInt8) ∈ s := by simpa [Ne.symm hx] using hs
      simp [cstr, hx, ih hm]

/-- Write `src` at the front of the memory `dst`. -/
def blit (src dst : Bytes) : Bytes := src ++ dst.drop src.length

theorem blit_eq_of_length {src dst : Bytes} (h : dst.length ≤ src.length) : blit src dst = src := by
  simp [blit, List.drop_eq_nil_of_le h]

@[simp] theorem blit_nil (dst : Bytes) : blit [] dst = dst := by simp [blit]

end Mefsc
