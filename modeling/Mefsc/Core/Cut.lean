import Mefsc.Core.Bytes

/-!
# Cutting a byte string into blocks, and reading a file block by block

`cut n l` is what a `do { read n bytes } while (!eof)` loop produces: full
blocks of length `n` and a last block that is strictly shorter (empty when `n`
divides the length). `Blocky n` is that shape. A list of this shape is
recovered from its concatenation alone (`cut_flatten_of_blocky`), which is why
a reader that re-cuts an undelimited file finds the writer's blocks.

`IStream` is a `std::ifstream` opened for reading: `read` delivers the bytes it
got and sets `eofbit` exactly when these are fewer than asked; a read error
sets an error bit and never `eofbit`.
-/
namespace Mefsc

variable {α : Type}

/-! ## Cutting -/

def cutGo (n : Nat) : Nat → List α → List (List α)
  | 0, l => [l]
  | f + 1, l => if l.length < n then [l] else l.take n :: cutGo n f (l.drop n)

def cut (n : Nat) (l : List α) : List (List α) := cutGo n l.length l

theorem cutGo_fuel {n : Nat} (hn : 0 < n) {f g : Nat} {l : List α} (hf : l.length ≤ f)
    (hg : l.length ≤ g) : cutGo n f l = cutGo n g l := by
  induction f generalizing g l with
  | zero =>
    obtain rfl : l = [] := List.eq_nil_of_length_eq_zero (by omega)
    cases g <;> simp [cutGo, hn]
  | succ f ih =>
    cases g with
    | zero =>
      obtain rfl : l = [] := List.eq_nil_of_length_eq_zero (by omega)
      simp [cutGo, hn]
    | succ g =>
      by_cases h : l.length < n
      · simp [cutGo, h]
      · simp only [cutGo, h, if_false]
        rw [ih (g := g) (by simp; omega) (by simp; omega)]

theorem cut_eq {n : Nat} (hn : 0 < n) (l : List α) :
    cut n l = if l.length < n then [l] else l.take n :: cut n (l.drop n) := by
  unfold cut
  cases h : l.length with
  | zero => simp [cutGo, hn]
  | succ f =>
    simp only [cutGo, h]
    split
    · rfl
    · rw [cutGo_fuel hn (f := f) (g := (l.drop n).length) (by simp; omega) (Nat.le_refl _)]

theorem cut_short {n : Nat} (hn : 0 < n) {l : List α} (h : l.length < n) : cut n l = [l] := by
  rw [cut_eq hn, if_pos h]

theorem cut_long {n : Nat} (hn : 0 < n) {l : List α} (h : n ≤ l.length) :
    cut n l = l.take n :: cut n (l.drop n) := by
  rw [cut_eq hn, if_neg (by omega)]

/-- Induction along the blocks. -/
theorem cut_induct {n : Nat} (hn : 0 < n) {P : List α → Prop}
    (short : ∀ l, l.length < n → P l) (long : ∀ l, n ≤ l.length → P (l.drop n) → P l)
    (l : List α) : P l := by
  induction hl : l.length using Nat.strongRecOn generalizing l with
  | ind m ih =>
    by_cases h : l.length < n
    · exact short l h
    · exact long l (by omega) (ih (l.drop n).length (by simp; omega) _ rfl)

theorem cut_flatten {n : Nat} (hn : 0 < n) (l : List α) : (cut n l).flatten = l := by
  induction l using cut_induct hn with
  | short l h => simp [cut_short hn h]
  | long l h ih => simp [cut_long hn h, ih]

theorem cut_ne_nil {n : Nat} (hn : 0 < n) (l : List α) : cut n l ≠ [] := by
  rw [cut_eq hn]
  split <;> simp

/-- Every block but the last has length `n`, and the last is shorter. -/
def Blocky (n : Nat) : List (List α) → Prop
  | [] => False
  | [b] => b.length < n
  | b :: c :: bs => b.length = n ∧ Blocky n (c :: bs)

theorem blocky_cons {n : Nat} {b : List α} {bs : List (List α)} (hb : b.length = n)
    (h : Blocky n bs) : Blocky n (b :: bs) := by
  cases bs with
  | nil => exact h.elim
  | cons c bs => exact ⟨hb, h⟩

theorem blocky_cut {n : Nat} (hn : 0 < n) (l : List α) : Blocky n (cut n l) := by
  induction l using cut_induct hn with
  | short l h => rw [cut_short hn h]; exact h
  | long l h ih => rw [cut_long hn h]; exact blocky_cons (by simpa using h) ih

theorem cut_flatten_of_blocky {n : Nat} (hn : 0 < n) {bs : List (List α)} (h : Blocky n bs) :
    cut n bs.flatten = bs := by
  induction bs with
  | nil => exact h.elim
  | cons b bs ih =>
    cases bs with
    | nil => simpa using cut_short hn h
    | cons c bs =>
      obtain ⟨hb, hbs⟩ := h
      rw [List.flatten_cons, cut_long hn (by simp [hb]), List.take_left' hb, List.drop_left' hb,
        ih hbs]

/-- The blocks of a concatenation are its parts exactly when these are blocks. -/
theorem cut_flatten_iff {n : Nat} (hn : 0 < n) {bs : List (List α)} : cut n bs.flatten = bs ↔ Blocky n bs := by
  refine ⟨fun h => ?_, cut_flatten_of_blocky hn⟩
  rw [← h]
  exact blocky_cut hn bs.flatten

theorem Blocky.ne_nil {n : Nat} {bs : List (List α)} (h : Blocky n bs) : bs ≠ [] := by
  rintro rfl
  exact h

theorem Blocky.le {n : Nat} {bs : List (List α)} (h : Blocky n bs) : ∀ b ∈ bs, b.length ≤ n := by
  induction bs with
  | nil => simp
  | cons b bs ih =>
    intro x hx
    cases bs with
    | nil =>
      obtain rfl : x = b := by simpa using hx
      exact Nat.le_of_lt h
    | cons c bs =>
      rcases List.mem_cons.mp hx with rfl | hx
      · exact h.1.le
      · exact ih h.2 x hx

/-- A block list that begins another one is all of it: its last block is
short, and only the last block of the other one is. -/
theorem Blocky.eq_of_begins {n : Nat} {bs cs : List (List α)} (hb : Blocky n bs) (hc : Blocky n cs)
    (h : bs <+: cs) : bs = cs := by
  induction bs generalizing cs with
  | nil => exact hb.elim
  | cons b bs ih =>
    obtain ⟨ds, rfl⟩ := h
    cases bs with
    | nil =>
      cases ds with
      | nil => rfl
      | cons d ds =>
        have hlt : b.length < n := hb
        have heq : b.length = n := hc.1
        omega
    | cons b' bs => exact congrArg (b :: ·) (ih hb.2 hc.2 ⟨ds, rfl⟩)

/-- Blocks whose lengths all grow by `k`. -/
theorem Blocky.grow {β : Type} {n k : Nat} {bs : List (List α)} {cs : List (List β)}
    (h : Blocky n bs) (hl : cs.map List.length = bs.map fun b => b.length + k) :
    Blocky (n + k) cs := by
  induction bs generalizing cs with
  | nil => exact h.elim
  | cons b bs ih =>
    match cs, hl with
    | c :: cs, hl =>
      simp only [List.map_cons, List.cons.injEq] at hl
      cases bs with
      | nil =>
        obtain rfl : cs = [] := by simpa using hl.2
        simp only [Blocky] at h ⊢
        omega
      | cons b' bs => exact blocky_cons (by rw [hl.1, h.1]) (ih h.2 hl.2)

/-! ## Input streams -/

/-- What a name denotes for an `ifstream`: its bytes, and whether a read
beyond them fails (`bad`: a directory, an I/O error) instead of ending. -/
structure Source where
  bytes : Bytes
  bad : Bool
  deriving DecidableEq, Repr

structure IStream where
  rest : Bytes
  bad : Bool
  eofbit : Bool
  failbit : Bool
  deriving DecidableEq, Repr

namespace IStream

def ofSource (s : Source) : IStream := ⟨s.bytes, s.bad, false, false⟩

/-- `istream::read`: the bytes stored (their number is `gcount`) and the new
stream. A stream that is not `good` reads nothing. -/
def read (s : IStream) (n : Nat) : Bytes × IStream :=
  if s.eofbit || s.failbit then ([], { s with failbit := true })
  else if n ≤ s.rest.length then (s.rest.take n, { s with rest := s.rest.drop n })
  else if s.bad then ([], { s with failbit := true })
  else (s.rest, { s with rest := [], eofbit := true, failbit := true })

/-- A stream with nothing wrong so far. -/
def fresh (b : Bytes) : IStream := ⟨b, false, false, false⟩

/-- A stream that has been read to its end. -/
def ended : IStream := ⟨[], false, true, true⟩

theorem read_full {b : Bytes} {n : Nat} (h : n ≤ b.length) :
    (fresh b).read n = (b.take n, fresh (b.drop n)) := by
  simp [fresh, read, h]

theorem read_short {b : Bytes} {n : Nat} (h : b.length < n) : (fresh b).read n = (b, ended) := by
  simp [fresh, read, ended, Nat.not_le.mpr h]

@[simp] theorem read_ended (n : Nat) : ended.read n = ([], ended) := by simp [ended, read]

@[simp] theorem fresh_eofbit (b : Bytes) : (fresh b).eofbit = false := rfl

@[simp] theorem ended_eofbit : ended.eofbit = true := rfl

theorem read_length_le (s : IStream) (n : Nat) : (s.read n).1.length ≤ n := by
  unfold read
  split
  · exact Nat.zero_le n
  split
  · simp
  split
  · exact Nat.zero_le n
  · exact (Nat.lt_of_not_le (by assumption)).le

/-- A read gets all it asks for exactly on a good stream with as much left. -/
theorem read_length_eq_iff (s : IStream) {n : Nat} (hn : 0 < n) :
    (s.read n).1.length = n ↔ (s.eofbit || s.failbit) = false ∧ n ≤ s.rest.length := by
  unfold read
  by_cases hbad : (s.eofbit || s.failbit) = true
  · rw [if_pos hbad, hbad]
    simp [hn.ne]
  rw [if_neg hbad]
  by_cases hle : n ≤ s.rest.length
  · rw [if_pos hle]
    simpa [hle] using hbad
  rw [if_neg hle]
  by_cases hs : s.bad = true
  · rw [if_pos hs]
    simp [hle, hn.ne]
  · rw [if_neg hs]
    refine ⟨fun h => absurd h.ge hle, fun h => absurd h.2 hle⟩

/-- A stream every read of which fails, without ever reaching the end. -/
structure Broken (s : IStream) : Prop where
  bad : s.bad = true
  rest : s.rest = []
  eofbit : s.eofbit = false

theorem broken_ofSource : Broken (ofSource ⟨[], true⟩) := ⟨rfl, rfl, rfl⟩

theorem Broken.read {s : IStream} (h : s.Broken) {n : Nat} (hn : 0 < n) :
    (s.read n).1 = [] ∧ (s.read n).2.Broken := by
  obtain ⟨rest, bad, eofbit, failbit⟩ := s
  obtain ⟨rfl, rfl, rfl⟩ := h
  have hlt : ¬ n ≤ ([] : Bytes).length := Nat.not_le.mpr hn
  unfold IStream.read
  cases failbit
  · rw [if_neg (by decide), if_neg hlt, if_pos rfl]
    exact ⟨rfl, rfl, rfl, rfl⟩
  · exact ⟨rfl, rfl, rfl, rfl⟩

end IStream

end Mefsc
