import Mathlib.Data.List.Nodup
import Mathlib.Data.List.Range
import Mathlib.Data.Nat.ModEq

/-!
# Counters that wrap

Several counters give out numbers modulo `M`, each from a start of its own. `F`
lists what was given out, each number with its counter. `Counted`: every counter
has given out the numbers right behind its start, in order. Then no number was
given out twice exactly when no two counters overlap and none went all the way
round (`Counted.nodup_iff`).
-/
namespace Mefsc

variable {V : Type} [DecidableEq V]

/-- What counter `v` has given out. -/
def given (v : V) (F : List (V × Nat)) : List Nat := (F.filter fun x => x.1 = v).map Prod.snd

def Counted (M : Nat) (start : V → Nat) (F : List (V × Nat)) : Prop :=
  ∀ v, given v F = (List.range (given v F).length).map fun i => (start v + (i + 1)) % M

/-- The `k` numbers behind `r` and the `k'` behind `r'` have one in common. -/
def Overlap (M r k r' k' : Nat) : Prop :=
  ∃ i j, 1 ≤ i ∧ i ≤ k ∧ 1 ≤ j ∧ j ≤ k' ∧ (r + i) % M = (r' + j) % M

theorem given_append (v : V) (F G : List (V × Nat)) : given v (F ++ G) = given v F ++ given v G := by
  simp [given]

@[simp] theorem given_nil (v : V) : given v [] = [] := rfl

@[simp] theorem given_one_self (v : V) (x : Nat) : given v [(v, x)] = [x] := by simp [given]

theorem given_one_of_ne {u v : V} (h : u ≠ v) (x : Nat) : given v [(u, x)] = [] := by simp [given, h]

theorem counted_nil (M : Nat) (start : V → Nat) : Counted M start [] := fun _ => rfl

/-- A counter gives out its next number. -/
theorem Counted.next {M : Nat} {start : V → Nat} {F : List (V × Nat)} (h : Counted M start F) (v : V) {x : Nat}
    (hx : x = (start v + (given v F).length + 1) % M) : Counted M start (F ++ [(v, x)]) := by
  intro u
  rw [given_append]
  by_cases hu : v = u
  · subst hu
    have hv := h v
    rw [given_one_self, List.length_append, List.length_singleton, List.range_succ, List.map_append, ← hv, hx]
    rfl
  · rw [given_one_of_ne hu, List.append_nil]
    exact h u

/-- Counters go on where they stand. -/
theorem Counted.append {M : Nat} {start start' : V → Nat} {F G : List (V × Nat)} (hF : Counted M start F)
    (hG : Counted M start' G)
    (h : ∀ v, given v G = [] ∨ start' v % M = (start v + (given v F).length) % M) : Counted M start (F ++ G) := by
  intro v
  rw [given_append]
  have hFv := hF v
  have hGv := hG v
  rcases h v with hv | hv
  · rw [hv, List.append_nil]
    exact hFv
  · rw [List.length_append, List.range_add, List.map_append, ← hFv, List.map_map]
    congr 1
    refine hGv.trans (List.map_congr_left fun i _ => ?_)
    change _ = (start v + ((given v F).length + i + 1)) % M
    rw [show start v + ((given v F).length + i + 1) = start v + (given v F).length + (i + 1) by omega]
    exact Nat.ModEq.add_right (i + 1) hv

theorem mem_given {v : V} {F : List (V × Nat)} {x : Nat} : x ∈ given v F ↔ (v, x) ∈ F := by
  constructor
  · intro h
    obtain ⟨y, hy, rfl⟩ := List.mem_map.mp h
    obtain ⟨hm, hv⟩ := List.mem_filter.mp hy
    rw [← of_decide_eq_true hv]
    exact hm
  · intro h
    exact List.mem_map.mpr ⟨(v, x), List.mem_filter.mpr ⟨h, decide_eq_true rfl⟩, rfl⟩

/-- No number comes twice when no counter repeats itself and no two share one. -/
theorem nodup_given_iff (F : List (V × Nat)) :
    (F.map Prod.snd).Nodup ↔ (∀ v, (given v F).Nodup) ∧ ∀ u v, u ≠ v → List.Disjoint (given u F) (given v F) := by
  induction F with
  | nil => simp
  | cons y F ih =>
    obtain ⟨a, x⟩ := y
    have hcons (v : V) : given v ((a, x) :: F) = given v [(a, x)] ++ given v F := given_append v [(a, x)] F
    have hx : x ∈ F.map Prod.snd ↔ ∃ v, x ∈ given v F := by
      simp only [mem_given, List.mem_map]
      exact ⟨fun ⟨⟨v, _⟩, hy, h⟩ => ⟨v, h ▸ hy⟩, fun ⟨v, hv⟩ => ⟨(v, x), hv, rfl⟩⟩
    rw [List.map_cons, List.nodup_cons, hx, ih]
    constructor
    · rintro ⟨hnew, hn, hd⟩
      have hnew (v : V) : x ∉ given v F := fun h => hnew ⟨v, h⟩
      refine ⟨fun v => ?_, fun u v huv => ?_⟩
      · rw [hcons]
        by_cases hv : a = v
        · subst hv
          rw [given_one_self]
          exact List.nodup_cons.mpr ⟨hnew a, hn a⟩
        · rw [given_one_of_ne hv]
          exact hn v
      · rw [hcons, hcons]
        by_cases hu : a = u
        · subst hu
          rw [given_one_self, given_one_of_ne huv]
          exact List.disjoint_cons_left.mpr ⟨hnew v, hd a v huv⟩
        · rw [given_one_of_ne hu]
          by_cases hv : a = v
          · subst hv
            rw [given_one_self]
            exact List.disjoint_cons_right.mpr ⟨hnew u, hd u a huv⟩
          · rw [given_one_of_ne hv]
            exact hd u v huv
    · rintro ⟨hn, hd⟩
      have hna := hn a
      rw [hcons, given_one_self] at hna
      refine ⟨fun ⟨v, hv⟩ => ?_, fun v => ?_, fun u v huv => ?_⟩
      · by_cases hav : a = v
        · subst hav
          exact (List.nodup_cons.mp hna).1 hv
        · have hda := hd a v hav
          rw [hcons a, given_one_self, hcons v] at hda
          exact hda List.mem_cons_self (List.mem_append_right _ hv)
      · have h := hn v
        rw [hcons] at h
        exact (List.nodup_append.mp h).2.1
      · have h := hd u v huv
        rw [hcons, hcons] at h
        exact fun y hu hv => h (List.mem_append_right _ hu) (List.mem_append_right _ hv)

section
variable {M : Nat} (hM : 0 < M) (r k : Nat)

include hM in
/-- `k` numbers in a row are distinct when there are at most `M` of them. -/
theorem nodup_window_iff : ((List.range k).map fun i => (r + (i + 1)) % M).Nodup ↔ k ≤ M := by
  constructor
  · intro h
    by_contra hk
    have hinj := List.inj_on_of_nodup_map h
    have h0 : 0 ∈ List.range k := List.mem_range.mpr (by omega)
    have h1 : M ∈ List.range k := List.mem_range.mpr (by omega)
    have heq : (r + (0 + 1)) % M = (r + (M + 1)) % M := by
      rw [show r + (M + 1) = r + (0 + 1) + M by omega, Nat.add_mod_right]
    have := hinj h0 h1 heq
    omega
  · intro hk
    refine List.Nodup.map_on (fun i hi j hj hij => ?_) List.nodup_range
    rw [List.mem_range] at hi hj
    have h := Nat.ModEq.add_left_cancel' r hij
    have h : Nat.ModEq M i j := Nat.ModEq.add_right_cancel' 1 h
    exact Nat.ModEq.eq_of_lt_of_lt h (by omega) (by omega)

end

variable {M : Nat} {start : V → Nat} {F : List (V × Nat)}

theorem Counted.mem_iff (h : Counted M start F) (v : V) (x : Nat) :
    x ∈ given v F ↔ ∃ i, 1 ≤ i ∧ i ≤ (given v F).length ∧ (start v + i) % M = x := by
  rw [h v, List.mem_map]
  constructor
  · rintro ⟨i, hi, rfl⟩
    rw [List.mem_range] at hi
    refine ⟨i + 1, by omega, ?_, rfl⟩
    rw [List.length_map, List.length_range]
    omega
  · rintro ⟨i, h1, hi, rfl⟩
    rw [List.length_map, List.length_range] at hi
    exact ⟨i - 1, List.mem_range.mpr (by omega), by rw [Nat.sub_add_cancel h1]⟩

theorem Counted.disjoint_iff (h : Counted M start F) (u v : V) :
    List.Disjoint (given u F) (given v F) ↔
      ¬ Overlap M (start u) (given u F).length (start v) (given v F).length := by
  constructor
  · rintro hd ⟨i, j, hi, hi', hj, hj', heq⟩
    exact hd ((h.mem_iff u _).mpr ⟨i, hi, hi', rfl⟩) ((h.mem_iff v _).mpr ⟨j, hj, hj', heq.symm⟩)
  · intro hno x hu hv
    obtain ⟨i, hi, hi', hx⟩ := (h.mem_iff u x).mp hu
    obtain ⟨j, hj, hj', hy⟩ := (h.mem_iff v x).mp hv
    exact hno ⟨i, j, hi, hi', hj, hj', hx.trans hy.symm⟩

theorem Counted.nodup_iff (h : Counted M start F) (hM : 0 < M) :
    ¬ (F.map Prod.snd).Nodup ↔
      (∃ u v, u ≠ v ∧ Overlap M (start u) (given u F).length (start v) (given v F).length) ∨
      ∃ v, M < (given v F).length := by
  have hone (v : V) : (given v F).Nodup ↔ (given v F).length ≤ M := by
    have := nodup_window_iff hM (start v) (given v F).length
    rwa [← h v] at this
  rw [nodup_given_iff]
  simp only [hone, h.disjoint_iff]
  constructor
  · intro hn
    by_contra hno
    push Not at hno
    exact hn ⟨hno.2, hno.1⟩
  · rintro (⟨u, v, huv, ho⟩ | ⟨v, hv⟩) ⟨hle, hd⟩
    · exact hd u v huv ho
    · exact Nat.not_lt.mpr (hle v) hv

end Mefsc
