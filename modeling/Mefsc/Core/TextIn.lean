import Mathlib.Data.List.TakeWhile
import Mefsc.Core.Bytes
import Mefsc.Core.Proc

/-!
# Formatted input

A text stream with its `eofbit` and `failbit`, and the extractions `>>` of a word, a
character and an `int`. `none`: the extraction failed, and what was to be read is left
as it was. `get` is the loop that clears the stream, ignores a character and tries
again; it ends in the first `buf.length + 1` rounds or not at all (`getN_get`).
-/
namespace Mefsc

structure TextIn where
  buf : Bytes
  eofbit : Bool
  failbit : Bool
  deriving DecidableEq, Repr

namespace TextIn

def isspace (b : UInt8) : Bool := b == 32 || (9 ≤ b && b ≤ 13)

def isdigit (b : UInt8) : Bool := 48 ≤ b && b ≤ 57

def minus : UInt8 := 45
def plus : UInt8 := 43

def good (c : TextIn) : Bool := !c.eofbit && !c.failbit

/-- What the sentry leaves to read from: nothing when the stream is not good, or has
only spaces. -/
def enter (c : TextIn) : Bytes := if c.good then c.buf.dropWhile isspace else []

/-- The stream when the sentry fails. -/
def stopped (c : TextIn) : TextIn := if c.good then ⟨[], true, true⟩ else { c with failbit := true }

def word (c : TextIn) : Option Bytes × TextIn :=
  match c.enter with
  | [] => (none, c.stopped)
  | b :: bs =>
    let rest := bs.dropWhile fun x => !isspace x
    (some (b :: bs.takeWhile fun x => !isspace x), ⟨rest, rest.isEmpty, false⟩)

def char (c : TextIn) : Option UInt8 × TextIn :=
  match c.enter with
  | [] => (none, c.stopped)
  | b :: bs => (some b, ⟨bs, false, false⟩)

/-- The value of a row of digits. -/
def value (ds : Bytes) : Nat := ds.foldl (fun v b => v * 10 + (b.toNat - 48)) 0

/-- Behind the sign. -/
def unsigned (b : Bytes) : Bytes := if b.head? = some minus ∨ b.head? = some plus then b.tail else b

def signed (b : Bytes) (v : Nat) : Int := if b.head? = some minus then -v else v

/-- The number, unless there is none or it is out of range, and what is left. -/
def numeral (b : Bytes) : Option Int × Bytes :=
  let ds := (unsigned b).takeWhile isdigit
  let v := signed b (value ds)
  (if ds ≠ [] ∧ -2 ^ 31 ≤ v ∧ v < 2 ^ 31 then some v else none, (unsigned b).dropWhile isdigit)

def int (c : TextIn) : Option Int × TextIn :=
  match c.enter with
  | [] => (none, c.stopped)
  | b :: bs =>
    let (v, rest) := numeral (b :: bs)
    (v, ⟨rest, rest.isEmpty, v.isNone⟩)

def clear (c : TextIn) : TextIn := ⟨c.buf, false, false⟩

/-- One character. -/
def ignore (c : TextIn) : TextIn :=
  if c.good then
    match c.buf with
    | [] => { c with eofbit := true }
    | _ :: bs => { c with buf := bs }
  else { c with failbit := true }

/-! ## Trying again -/

section
variable {α : Type} (x : TextIn → Option α × TextIn)

def retry (_ : Unit) (c : TextIn) : Option ((Unit ⊕ α) × TextIn) :=
  match x c with
  | (some a, c') => some (.inr a, c')
  | (none, c') => some (.inl (), c'.clear.ignore)

/-- At most `n` rounds. -/
def getN (n : Nat) (c : TextIn) : Option (α × TextIn) := iterN (retry x) n () c

def get (c : TextIn) : Option (α × TextIn) := getN x (c.buf.length + 1) c

/-- An extraction puts nothing back, and takes something or fails. -/
structure Takes : Prop where
  le : ∀ c, (x c).2.buf.length ≤ c.buf.length
  lt : ∀ c a c', x c = (some a, c') → c'.buf.length < c.buf.length

variable {x}

theorem clear_ignore_length (c : TextIn) : c.clear.ignore.buf.length = c.buf.length - 1 := by
  unfold clear ignore good
  cases c.buf <;> rfl

theorem getN_succ (n : Nat) (c : TextIn) : getN x (n + 1) c =
    match x c with
    | (some a, c') => some (a, c')
    | (none, c') => getN x n c'.clear.ignore := by
  rw [getN, iterN, retry]
  obtain ⟨o, c'⟩ := x c
  cases o <;> rfl

theorem getN_mono {n m : Nat} (h : n ≤ m) {c : TextIn} {r : α × TextIn} (hr : getN x n c = some r) :
    getN x m c = some r :=
  Proc.iterN_mono (fun _ _ _ hx => hx) h hr

theorem getN_nil (hx : Takes x) (n : Nat) {c : TextIn} (hc : c.buf = []) : getN x n c = none := by
  induction n generalizing c with
  | zero => rfl
  | succ n ih =>
    rw [getN_succ]
    obtain ⟨o, c', he⟩ : ∃ o c', x c = (o, c') := ⟨_, _, rfl⟩
    rw [he]
    cases o with
    | some a =>
      have := hx.lt c a c' he
      rw [hc] at this
      simp at this
    | none =>
      refine ih (List.length_eq_zero_iff.mp ?_)
      have := hx.le c
      rw [he, hc] at this
      rw [clear_ignore_length]
      simp only [List.length_nil] at this
      omega

theorem getN_get (hx : Takes x) {n : Nat} {c : TextIn} {r : α × TextIn} (h : getN x n c = some r) :
    get x c = some r := by
  induction n generalizing c with
  | zero => cases h
  | succ n ih =>
    unfold get
    rw [getN_succ] at h ⊢
    obtain ⟨o, c', he⟩ : ∃ o c', x c = (o, c') := ⟨_, _, rfl⟩
    rw [he] at h ⊢
    cases o with
    | some a => exact h
    | none =>
      have hle := hx.le c
      rw [he] at hle
      by_cases hc : c.buf = []
      · exfalso
        rw [hc] at hle
        have hnil : c'.clear.ignore.buf = [] := by
          apply List.length_eq_zero_iff.mp
          rw [clear_ignore_length]
          simp only [List.length_nil] at hle
          omega
        simp only [getN_nil hx n hnil] at h
        cases h
      · refine getN_mono ?_ (ih h)
        have hpos := List.length_pos_iff.mpr hc
        rw [clear_ignore_length]
        simp only at hle
        omega

end

/-! ## What an extraction takes -/

theorem enter_length (c : TextIn) : c.enter.length ≤ c.buf.length := by
  unfold enter
  split
  · exact (List.dropWhile_suffix _).length_le
  · exact Nat.zero_le _

theorem stopped_length (c : TextIn) : c.stopped.buf.length ≤ c.buf.length := by
  unfold stopped
  split
  · exact Nat.zero_le _
  · exact Nat.le_refl _

theorem word_lt {c : TextIn} {b : UInt8} {bs : Bytes} (h : c.enter = b :: bs) :
    (c.word).2.buf.length < c.buf.length := by
  have hle := enter_length c
  have hrest := (List.dropWhile_suffix (l := bs) fun x => !isspace x).length_le
  unfold word
  rw [h] at hle ⊢
  simp only [List.length_cons] at hle
  simp only
  omega

theorem takes_word : Takes word := by
  refine ⟨fun c => ?_, fun c a c' h => ?_⟩
  · cases he : c.enter with
    | nil =>
      have hw : c.word = (none, c.stopped) := by simp [word, he]
      rw [hw]
      exact stopped_length c
    | cons b bs => exact (word_lt he).le
  · cases he : c.enter with
    | nil => simp [word, he] at h
    | cons b bs =>
      have := word_lt he
      rwa [h] at this

theorem unsigned_length (b : Bytes) : (unsigned b).length ≤ b.length := by
  unfold unsigned
  split
  · simp
  · exact Nat.le_refl _

theorem numeral_le (b : Bytes) : (numeral b).2.length ≤ b.length :=
  (List.dropWhile_suffix _).length_le.trans (unsigned_length b)

theorem numeral_lt {b : Bytes} {v : Int} (h : (numeral b).1 = some v) : (numeral b).2.length < b.length := by
  have hds : (unsigned b).takeWhile isdigit ≠ [] := by
    intro hds
    simp [numeral, hds] at h
  have hpos := List.length_pos_iff.mpr hds
  have hsplit := congrArg List.length (List.takeWhile_append_dropWhile (p := isdigit) (l := unsigned b))
  rw [List.length_append] at hsplit
  have hle := unsigned_length b
  unfold numeral
  simp only
  omega

theorem takes_int : Takes int := by
  refine ⟨fun c => ?_, fun c a c' h => ?_⟩
  · cases he : c.enter with
    | nil =>
      have hw : c.int = (none, c.stopped) := by simp [int, he]
      rw [hw]
      exact stopped_length c
    | cons b bs =>
      have hle := enter_length c
      have hn := numeral_le (b :: bs)
      unfold int
      rw [he] at hle ⊢
      simp only
      omega
  · cases he : c.enter with
    | nil => simp [int, he] at h
    | cons b bs =>
      have hle := enter_length c
      rw [he] at hle
      simp only [int, he, Prod.mk.injEq] at h
      have hn := numeral_lt h.1
      rw [← h.2]
      simp only
      omega

theorem char_length (c : TextIn) : (c.char).2.buf.length ≤ c.buf.length := by
  have hle := enter_length c
  unfold char
  cases he : c.enter with
  | nil => exact stopped_length c
  | cons b bs =>
    rw [he] at hle
    simp only [List.length_cons] at hle ⊢
    omega

theorem get_lt {α : Type} {x : TextIn → Option α × TextIn} (hx : Takes x) {c c' : TextIn} {a : α}
    (h : get x c = some (a, c')) : c'.buf.length < c.buf.length := by
  unfold get at h
  generalize c.buf.length + 1 = n at h
  induction n generalizing c with
  | zero => cases h
  | succ n ih =>
    rw [getN_succ] at h
    obtain ⟨o, c1, he⟩ : ∃ o c1, x c = (o, c1) := ⟨_, _, rfl⟩
    rw [he] at h
    cases o with
    | some b =>
      cases h
      exact hx.lt c a c' he
    | none =>
      have hrest := ih h
      have hle := hx.le c
      rw [he] at hle
      rw [clear_ignore_length] at hrest
      simp only at hle
      omega

/-! ## Tokens -/

theorem get_of_some {α : Type} {x : TextIn → Option α × TextIn} {c c' : TextIn} {a : α} (h : x c = (some a, c')) :
    get x c = some (a, c') := by
  unfold get
  rw [getN_succ, h]

/-- A token behind spaces. -/
theorem enter_spaces {ws : Bytes} (hws : ∀ b ∈ ws, isspace b = true) {b : UInt8} (hb : isspace b = false)
    (bs : Bytes) : enter ⟨ws ++ b :: bs, false, false⟩ = b :: bs := by
  have hgood : good ⟨ws ++ b :: bs, false, false⟩ = true := rfl
  unfold enter
  rw [if_pos hgood]
  simp only [List.dropWhile_append_of_pos hws, List.dropWhile_cons, hb]
  rfl

/-- Nothing but spaces is left. -/
theorem enter_end {ws : Bytes} (hws : ∀ b ∈ ws, isspace b = true) : enter ⟨ws, false, false⟩ = [] := by
  have hgood : good ⟨ws, false, false⟩ = true := rfl
  unfold enter
  rw [if_pos hgood]
  exact List.dropWhile_eq_nil_iff.mpr hws

theorem char_end {ws : Bytes} (hws : ∀ b ∈ ws, isspace b = true) :
    char ⟨ws, false, false⟩ = (none, ⟨[], true, true⟩) := by
  unfold char
  rw [enter_end hws]
  rfl

theorem get_int_nil {c : TextIn} (h : c.buf = []) : get int c = none := getN_nil takes_int _ h

theorem get_int_end {ws : Bytes} (hws : ∀ b ∈ ws, isspace b = true) : get int ⟨ws, false, false⟩ = none := by
  have hint : int ⟨ws, false, false⟩ = (none, ⟨[], true, true⟩) := by
    unfold int
    rw [enter_end hws]
    rfl
  unfold get
  rw [getN_succ, hint]
  exact getN_nil takes_int _ rfl

theorem char_reads {ws : Bytes} (hws : ∀ b ∈ ws, isspace b = true) {b : UInt8} (hb : isspace b = false) (r : Bytes) :
    char ⟨ws ++ b :: r, false, false⟩ = (some b, ⟨r, false, false⟩) := by
  unfold char
  rw [enter_spaces hws hb]

theorem word_reads {ws w : Bytes} (hws : ∀ b ∈ ws, isspace b = true) (hne : w ≠ [])
    (hw : ∀ b ∈ w, isspace b = false) {s : UInt8} (hs : isspace s = true) (r : Bytes) :
    word ⟨ws ++ (w ++ s :: r), false, false⟩ = (some w, ⟨s :: r, false, false⟩) := by
  obtain ⟨b, bs, rfl⟩ := List.exists_cons_of_ne_nil hne
  have hbs : ∀ x ∈ bs, (!isspace x) = true := by
    intro x hx
    simp [hw x (List.mem_cons_of_mem b hx)]
  unfold word
  rw [List.cons_append, enter_spaces hws (hw b List.mem_cons_self)]
  simp only [List.takeWhile_append_of_pos hbs, List.dropWhile_append_of_pos hbs]
  simp [hs]

/-- `n` spells `i`: a sign or none, and digits. -/
structure Spells (n : Bytes) (i : Int) : Prop where
  ne_nil : unsigned n ≠ []
  digits : ∀ b ∈ unsigned n, isdigit b = true
  value : signed n (value (unsigned n)) = i
  lo : -2 ^ 31 ≤ i
  hi : i < 2 ^ 31

theorem not_isspace_of_isdigit {b : UInt8} (h : isdigit b = true) : isspace b = false := by
  simp only [isdigit, Bool.and_eq_true, decide_eq_true_eq, UInt8.le_iff_toNat_le] at h
  have h1 : (48 : UInt8).toNat = 48 := rfl
  rw [← Bool.not_eq_true]
  intro hs
  simp only [isspace, Bool.or_eq_true, Bool.and_eq_true, decide_eq_true_eq, beq_iff_eq, UInt8.le_iff_toNat_le] at hs
  rcases hs with rfl | ⟨-, hs⟩
  · exact absurd h.1 (by decide)
  · have h2 : (13 : UInt8).toNat = 13 := rfl
    omega

theorem Spells.head {n : Bytes} {i : Int} (h : Spells n i) : ∃ b bs, n = b :: bs ∧ isspace b = false := by
  cases n with
  | nil => exact absurd rfl h.ne_nil
  | cons b bs =>
    refine ⟨b, bs, rfl, ?_⟩
    by_cases hb : (b :: bs).head? = some minus ∨ (b :: bs).head? = some plus
    · rcases hb with hb | hb
      · obtain rfl := Option.some.inj hb
        rfl
      · obtain rfl := Option.some.inj hb
        rfl
    · refine not_isspace_of_isdigit (h.digits b ?_)
      unfold unsigned
      rw [if_neg hb]
      exact List.mem_cons_self

theorem int_reads {ws n : Bytes} {i : Int} (hws : ∀ b ∈ ws, isspace b = true) (hn : Spells n i) {s : UInt8}
    (hs : isspace s = true) (r : Bytes) :
    int ⟨ws ++ (n ++ s :: r), false, false⟩ = (some i, ⟨s :: r, false, false⟩) := by
  obtain ⟨b, bs, rfl, hb⟩ := hn.head
  have hsd : isdigit s = false := by
    rw [← Bool.not_eq_true]
    intro hd
    rw [not_isspace_of_isdigit hd] at hs
    cases hs
  have hun : unsigned (b :: bs ++ s :: r) = unsigned (b :: bs) ++ s :: r := by
    unfold unsigned
    by_cases h : (b :: bs).head? = some minus ∨ (b :: bs).head? = some plus
    · exact (if_pos h).trans (by rw [if_pos h]; rfl)
    · exact (if_neg h).trans (by rw [if_neg h])
  have htake : (unsigned (b :: bs) ++ s :: r).takeWhile isdigit = unsigned (b :: bs) := by
    rw [List.takeWhile_append_of_pos hn.digits]
    simp [hsd]
  have hdrop : (unsigned (b :: bs) ++ s :: r).dropWhile isdigit = s :: r := by
    rw [List.dropWhile_append_of_pos hn.digits]
    simp [hsd]
  have hnum : numeral (b :: bs ++ s :: r) = (some i, s :: r) := by
    unfold numeral
    simp only [hun, htake, hdrop]
    have hv : signed (b :: bs ++ s :: r) (value (unsigned (b :: bs))) = i := hn.value
    rw [hv, if_pos ⟨hn.ne_nil, hn.lo, hn.hi⟩]
  rw [List.cons_append] at hnum
  unfold int
  rw [List.cons_append, enter_spaces hws hb]
  simp only [hnum]
  rfl

end TextIn

end Mefsc
