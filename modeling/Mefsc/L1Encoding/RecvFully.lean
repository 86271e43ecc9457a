import Mefsc.L1Encoding.Socket

/-!
# Where `recv_fully` ends

`src/encryption_utils/SessionEnc.cpp:8-21` on any sequence of `recv` outcomes,
ended or endless. The loop looks at errno after every return that is not
positive, also after 0, which leaves errno as an earlier call set it: with
`EINTR` in it the end of the stream is asked for again, for ever.

* `Calls`: the outcomes, an end that stays and finitely many interruptions.
* `recvFully_skip`: the loop over outcomes that do not stop it.
* `recvFully_ends_iff`: it returns, and returns what arrived, unless the stream
  ends early with errno at `EINTR`.
* `recvFully_calls`: on a `Sock` it is the `recvFully` the processes use.
-/
namespace Mefsc.L1

/-- The outcomes of the `recv` calls to come; `none`: the return value 0. -/
structure Calls where
  next : Nat → Option Delivery
  ended : ∀ i, next i = none → next (i + 1) = none
  interruptions : ∃ n, ∀ i, n ≤ i → next i ≠ some (.err EINTR)

namespace Calls

/-- Call number `i`, for at most `len` bytes: return value, bytes, errno. -/
def recv (c : Calls) (i errno len : Nat) : Int × Bytes × Nat :=
  match c.next i with
  | none => (0, [], errno)
  | some (.err e) => (-1, [], e)
  | some (.data b _) => ((b.take len).length, b.take len, errno)

/-- Returns whether all bytes arrived, and the bytes stored; `none`: more than
`fuel` calls of `recv`.
mirrors src/encryption_utils/SessionEnc.cpp:8-21 -/
def recvFully (c : Calls) : Nat → Nat → Nat → Nat → Bytes → Option (Bool × Bytes)
  | _, _, _, 0, dest => some (true, dest)
  | 0, _, _, _ + 1, _ => none
  | fuel + 1, i, errno, len + 1, dest =>
    let x := c.recv i errno (len + 1)
    if x.1 ≤ 0 then
      if x.2.2 = EINTR then recvFully c fuel (i + 1) x.2.2 (len + 1) dest
      else some (false, dest)
    else recvFully c fuel (i + 1) x.2.2 (len + 1 - x.2.1.length) (dest ++ x.2.1)

/-- The bytes of one outcome. -/
def payload : Option Delivery → Bytes
  | some (.data b _) => b
  | _ => []

/-- An end of stream or an error other than an interruption. -/
def Stops : Option Delivery → Prop
  | none => True
  | some (.err e) => e ≠ EINTR
  | some (.data _ _) => False

instance : DecidablePred Stops
  | none => .isTrue trivial
  | some (.err e) => inferInstanceAs (Decidable (e ≠ EINTR))
  | some (.data _ _) => .isFalse id

/-- What the first `n` calls bring. -/
def arrived (c : Calls) (n : Nat) : Bytes := (List.range n).flatMap fun i => payload (c.next i)

/-- None of the first `n` calls stops the loop. -/
def Clear (c : Calls) (n : Nat) : Prop := ∀ i < n, ¬ Stops (c.next i)

/-- `len` bytes arrive before the first end of stream or other error. -/
def Delivers (c : Calls) (len : Nat) : Prop := ∃ n, c.Clear n ∧ len ≤ (c.arrived n).length

/-- The stream ends before `len` bytes and before any other error, and errno is then
`EINTR`: on entry, or because of an interruption on the way. -/
def StaleEnd (c : Calls) (errno len : Nat) : Prop :=
  ∃ n, c.next n = none ∧ c.Clear n ∧ (c.arrived n).length < len ∧
    (errno = EINTR ∨ ∃ i < n, c.next i = some (.err EINTR))

variable {c : Calls} {n m : Nat}

/-! ## What arrived -/

@[simp] theorem arrived_zero (c : Calls) : c.arrived 0 = [] := rfl

theorem arrived_succ (c : Calls) (n : Nat) : c.arrived (n + 1) = c.arrived n ++ payload (c.next n) := by
  simp [arrived, List.range_succ, List.flatMap_append]

theorem arrived_begins (h : n ≤ m) : c.arrived n <+: c.arrived m := by
  induction h with
  | refl => exact List.prefix_refl _
  | step _ ih =>
    rw [arrived_succ]
    exact ih.trans (List.prefix_append _ _)

theorem Clear.mono (h : c.Clear m) (hn : n ≤ m) : c.Clear n := fun i hi => h i (by omega)

/-- A call that does not stop the loop brings data or is an interruption. -/
theorem not_stops {o : Option Delivery} (h : ¬ Stops o) :
    (∃ b ne, o = some (.data b ne)) ∨ o = some (.err EINTR) := by
  cases o with
  | none => exact absurd trivial h
  | some d =>
    cases d with
    | data b ne => exact .inl ⟨b, ne, rfl⟩
    | err e =>
      obtain rfl : e = EINTR := Decidable.not_not.mp h
      exact .inr rfl

/-- Past the last interruption each call that does not stop the loop brings a byte. -/
theorem length_arrived {N : Nat} (hN : ∀ i, N ≤ i → c.next i ≠ some (.err EINTR)) (k : Nat)
    (h : c.Clear (N + k)) : k ≤ (c.arrived (N + k)).length := by
  induction k with
  | zero => exact Nat.zero_le _
  | succ k ih =>
    have hk := ih (h.mono (by omega))
    rcases not_stops (h (N + k) (by omega)) with ⟨b, ne, hb⟩ | he
    · have hpos : 0 < b.length := List.length_pos_iff.mpr ne
      rw [← Nat.add_assoc, arrived_succ, hb, List.length_append]
      simp only [payload]
      omega
    · exact absurd he (hN _ (by omega))

/-- Either the bytes arrive or the loop is stopped before. -/
theorem first_stop (c : Calls) (len : Nat) :
    ∃ n, c.Clear n ∧ (∀ i < n, (c.arrived i).length < len) ∧
      (len ≤ (c.arrived n).length ∨ (c.arrived n).length < len ∧ Stops (c.next n)) := by
  obtain ⟨N, hN⟩ := c.interruptions
  have hex : ∃ n, len ≤ (c.arrived n).length ∨ Stops (c.next n) := by
    by_cases hc : c.Clear (N + len)
    · exact ⟨N + len, .inl (length_arrived hN len hc)⟩
    · unfold Clear at hc
      push Not at hc
      obtain ⟨i, -, hi⟩ := hc
      exact ⟨i, .inr hi⟩
  have hmin : ∀ i < Nat.find hex, ¬ (len ≤ (c.arrived i).length ∨ Stops (c.next i)) :=
    fun i hi => Nat.find_min hex hi
  refine ⟨Nat.find hex, fun i hi hs => hmin i hi (.inr hs), fun i hi => ?_, ?_⟩
  · have := hmin i hi
    omega
  · have hfound := Nat.find_spec hex
    by_cases hl : len ≤ (c.arrived (Nat.find hex)).length
    · exact .inl hl
    · exact .inr ⟨by omega, hfound.resolve_left hl⟩

/-- A stop in front of the wanted bytes keeps them from arriving. -/
theorem not_delivers {len : Nat} (hs : Stops (c.next n)) (hl : (c.arrived n).length < len) : ¬ c.Delivers len := by
  intro ⟨m, hm, hlen⟩
  have hmn : m ≤ n := by
    by_contra hlt
    exact hm n (by omega) hs
  have := (arrived_begins (c := c) hmn).length_le
  omega

/-! ## The loop -/

variable {fuel errno len : Nat} {dest : Bytes}

/-- Over `n` calls that do not stop it the loop collects what they bring. -/
theorem recvFully_skip (c : Calls) (errno len : Nat) (dest : Bytes) (n fuel : Nat) (hc : c.Clear n)
    (hl : (c.arrived n).length < len) :
    ∃ errno', (errno' = EINTR ↔ errno = EINTR ∨ ∃ i < n, c.next i = some (.err EINTR)) ∧
      c.recvFully (n + fuel) 0 errno len dest =
        c.recvFully fuel n errno' (len - (c.arrived n).length) (dest ++ c.arrived n) := by
  induction n generalizing fuel with
  | zero => exact ⟨errno, by simp, by simp⟩
  | succ n ih =>
    rw [arrived_succ, List.length_append] at hl
    obtain ⟨errno', he, hrun⟩ := ih (fuel + 1) (hc.mono (by omega)) (by omega)
    rw [show n + 1 + fuel = n + (fuel + 1) by omega, hrun, arrived_succ]
    obtain ⟨k, hk⟩ : ∃ k, len - (c.arrived n).length = k + 1 := ⟨len - (c.arrived n).length - 1, by omega⟩
    rcases not_stops (hc n (by omega)) with ⟨b, ne, hb⟩ | hi
    · have hpos : 0 < b.length := List.length_pos_iff.mpr ne
      simp only [hb, payload] at hl
      refine ⟨errno', ?_, ?_⟩
      · rw [he]
        refine or_congr_right (exists_congr fun i => and_congr_left fun h => ?_)
        have hi : i ≠ n := by
          intro hi
          rw [hi, hb] at h
          cases h
        omega
      · have htake : b.take (k + 1) = b := List.take_of_length_le (by omega)
        have hpos' : ¬ ((b.length : Int) ≤ 0) := by omega
        simp only [hk, recvFully, recv, hb, htake, hpos', if_false, payload, List.length_append, List.append_assoc]
        congr 1
        omega
    · refine ⟨EINTR, iff_of_true rfl (.inr ⟨n, by omega, hi⟩), ?_⟩
      simp [hk, recvFully, recv, hi, payload]

/-- The call that completes the bytes. -/
theorem recvFully_last (hc : c.Clear (n + 1)) (hl : (c.arrived n).length < len)
    (hn : len ≤ (c.arrived (n + 1)).length) :
    c.recvFully (n + 1) 0 errno len dest = some (true, dest ++ (c.arrived (n + 1)).take len) := by
  obtain ⟨errno', -, hrun⟩ := recvFully_skip c errno len dest n 1 (hc.mono (by omega)) hl
  rw [arrived_succ, List.length_append] at hn
  obtain ⟨k, hk⟩ : ∃ k, len - (c.arrived n).length = k + 1 := ⟨len - (c.arrived n).length - 1, by omega⟩
  rcases not_stops (hc n (by omega)) with ⟨b, ne, hb⟩ | hi
  · simp only [hb, payload] at hn
    have hlen : (b.take (k + 1)).length = k + 1 := List.length_take_of_le (by omega)
    have hpos : ¬ (((k + 1 : Nat) : Int) ≤ 0) := by omega
    rw [hrun, arrived_succ, hk]
    simp only [recvFully, recv, hb, hlen, hpos, if_false, Nat.sub_self, payload]
    rw [List.take_append, List.take_of_length_le (by omega : (c.arrived n).length ≤ len), hk, List.append_assoc]
  · simp only [hi, payload, List.length_nil] at hn
    omega

/-- An end of stream with `EINTR` in errno is asked for again for ever. -/
theorem recvFully_stale (hn : c.next n = none) : c.recvFully fuel n EINTR (len + 1) dest = none := by
  induction fuel generalizing n with
  | zero => rfl
  | succ fuel ih => simpa [recvFully, recv, hn] using ih (c.ended n hn)

theorem recvFully_succ {i : Nat} {x : Bool × Bytes} (h : c.recvFully fuel i errno len dest = some x) :
    c.recvFully (fuel + 1) i errno len dest = some x := by
  induction fuel generalizing i errno len dest with
  | zero =>
    cases len with
    | zero => exact h
    | succ len => cases h
  | succ fuel ih =>
    cases len with
    | zero => exact h
    | succ len =>
      rw [recvFully] at h ⊢
      split
      · rename_i hle
        rw [if_pos hle] at h
        split
        · rename_i he
          rw [if_pos he] at h
          exact ih h
        · rename_i he
          rwa [if_neg he] at h
      · rename_i hle
        rw [if_neg hle] at h
        exact ih h

theorem recvFully_add {i : Nat} {x : Bool × Bytes} (h : c.recvFully fuel i errno len dest = some x) (k : Nat) :
    c.recvFully (k + fuel) i errno len dest = some x := by
  induction k with
  | zero => simpa using h
  | succ k ih =>
    rw [show k + 1 + fuel = k + fuel + 1 by omega]
    exact recvFully_succ ih

/-! ## How it ends -/

theorem recvFully_endless (h : c.StaleEnd errno len) (fuel : Nat) : c.recvFully fuel 0 errno len dest = none := by
  obtain ⟨n, hn, hc, hl, he⟩ := h
  obtain ⟨errno', herr, hrun⟩ := recvFully_skip c errno len dest n fuel hc hl
  obtain ⟨k, hk⟩ : ∃ k, len - (c.arrived n).length = k + 1 := ⟨len - (c.arrived n).length - 1, by omega⟩
  rw [herr.mpr he, hk, recvFully_stale hn] at hrun
  cases hx : c.recvFully fuel 0 errno len dest with
  | none => rfl
  | some x =>
    rw [recvFully_add hx n] at hrun
    cases hrun

theorem recvFully_delivers (hc : c.Clear n) (hmin : ∀ i < n, (c.arrived i).length < len)
    (hn : len ≤ (c.arrived n).length) :
    c.recvFully n 0 errno len dest = some (true, dest ++ (c.arrived n).take len) := by
  cases n with
  | zero =>
    obtain rfl : len = 0 := Nat.le_zero.mp hn
    simp [recvFully]
  | succ n => exact recvFully_last hc (hmin n (by omega)) hn

theorem recvFully_stopped (hc : c.Clear n) (hl : (c.arrived n).length < len) (hs : Stops (c.next n))
    (hstale : ¬ c.StaleEnd errno len) :
    c.recvFully (n + 1) 0 errno len dest = some (false, dest ++ c.arrived n) := by
  obtain ⟨errno', herr, hrun⟩ := recvFully_skip c errno len dest n 1 hc hl
  obtain ⟨k, hk⟩ : ∃ k, len - (c.arrived n).length = k + 1 := ⟨len - (c.arrived n).length - 1, by omega⟩
  rw [hrun, hk]
  cases hn : c.next n with
  | none =>
    have hne : errno' ≠ EINTR := fun he => hstale ⟨n, hn, hc, hl, herr.mp he⟩
    simp [recvFully, recv, hn, hne]
  | some d =>
    rw [hn] at hs
    cases d with
    | data b ne => exact hs.elim
    | err e =>
      have hne : e ≠ EINTR := hs
      simp [recvFully, recv, hn, hne]

end Calls

/-- `recv_fully` returns, true exactly when the bytes arrive before the first end of
stream or other error and then with those bytes, unless the stream ends early with
errno at `EINTR`. -/
theorem recvFully_ends_iff (c : Calls) (errno len : Nat) :
    (∃ fuel ok dest, c.recvFully fuel 0 errno len [] = some (ok, dest) ∧ (ok = true ↔ c.Delivers len) ∧
      (ok = true → ∀ n, c.Clear n → len ≤ (c.arrived n).length → dest = (c.arrived n).take len)) ↔
    ¬ c.StaleEnd errno len := by
  refine ⟨fun ⟨_, _, _, hrun, _⟩ hstale => ?_, fun hstale => ?_⟩
  · rw [Calls.recvFully_endless hstale] at hrun
    cases hrun
  obtain ⟨n, hc, hmin, hn | ⟨hl, hs⟩⟩ := c.first_stop len
  · refine ⟨n, true, _, Calls.recvFully_delivers hc hmin hn, iff_of_true rfl ⟨n, hc, hn⟩, fun _ m _ hm => ?_⟩
    have hnm : n ≤ m := by
      by_contra hlt
      have := hmin m (by omega)
      omega
    obtain ⟨more, hmore⟩ := Calls.arrived_begins (c := c) hnm
    rw [← hmore, List.take_append_of_le_length hn, List.nil_append]
  · exact ⟨n + 1, false, _, Calls.recvFully_stopped hc hl hs hstale,
      iff_of_false (by simp) (Calls.not_delivers hs hl), fun h => by cases h⟩

/-- The peer has closed; nothing else happens. -/
def closedCalls : Calls := ⟨fun _ => none, fun _ h => h, 0, fun _ _ => by simp⟩

/-- With `EINTR` left in errno by an earlier call, a closed connection is never noticed. -/
theorem recvFully_closed_endless :
    ¬ ∃ fuel ok dest, closedCalls.recvFully fuel 0 EINTR 1 [] = some (ok, dest) := by
  intro ⟨fuel, ok, dest, hrun⟩
  have hstale : closedCalls.StaleEnd EINTR 1 := ⟨0, rfl, fun _ h => by omega, by decide, .inl rfl⟩
  rw [Calls.recvFully_endless hstale] at hrun
  cases hrun

/-! ## One `recv` of a socket -/

/-- The next `recv` brings the first `n` bytes at once. -/
def Together (s : Sock) (n : Nat) : Prop := ∃ b ne ds, s.coming = .data b ne :: ds ∧ n ≤ b.length

section
variable (s : Sock) (len : Nat)

theorem recv_append : (s.recv len).2.1 ++ (s.recv len).2.2.stream = s.stream := by
  obtain ⟨coming, errno⟩ := s
  cases coming with
  | nil => rfl
  | cons d ds =>
    cases d with
    | err e => rfl
    | data b ne =>
      unfold Sock.recv
      dsimp only
      split
      · rfl
      · simp only [Sock.stream, Sock.bytes]
        rw [← List.append_assoc, List.take_append_drop]

theorem recv_length_le : (s.recv len).2.1.length ≤ len := by
  unfold Sock.recv
  split
  · simp
  · simp
  · split
    · assumption
    · simp

theorem recv_length_iff (hlen : 0 < len) : (s.recv len).2.1.length = len ↔ Together s len := by
  unfold Together
  obtain ⟨coming, errno⟩ := s
  cases coming with
  | nil => simp [Sock.recv]; omega
  | cons d ds =>
    cases d with
    | err e => simp [Sock.recv]; omega
    | data b ne =>
      unfold Sock.recv
      dsimp only
      split
      · refine ⟨fun h => ⟨b, ne, ds, rfl, Nat.le_of_eq h.symm⟩, fun h => ?_⟩
        obtain ⟨b', _, _, hb, hl⟩ := h
        obtain ⟨rfl, -⟩ : b = b' ∧ _ := by simpa using hb
        dsimp only
        omega
      · refine iff_of_true ?_ ⟨b, ne, ds, rfl, by omega⟩
        rw [List.length_take_of_le (by omega)]

/-- `recv_fully` for what one `recv` brings is that `recv`. -/
theorem recvFully_once (n : Nat) {len : Nat} (hgot : (s.recv (len + 1)).2.1 ≠ []) :
    recvFully (n + 1) s (s.recv (len + 1)).2.1.length [] =
      some (true, (s.recv (len + 1)).2.1, (s.recv (len + 1)).2.2) := by
  obtain ⟨coming, errno⟩ := s
  cases coming with
  | nil => exact absurd rfl hgot
  | cons d ds =>
    cases d with
    | err e => exact absurd rfl hgot
    | data b ne =>
      obtain ⟨k, hk⟩ : ∃ k, b.length = k + 1 := Nat.exists_eq_succ_of_ne_zero (by simpa using ne)
      unfold Sock.recv
      dsimp only
      split
      · simp [recvFully, Sock.recv, hk]
      · rename_i hle
        have hpos : ¬ (((len + 1 : Nat) : Int) ≤ 0) := by omega
        have hlen : (b.take (len + 1)).length = len + 1 := List.length_take_of_le (by omega)
        simp only [hlen, recvFully, Sock.recv, hle, hpos, dite_false, if_false, Nat.sub_self, List.nil_append]

end

/-! ## `recv_fully` on a socket -/

/-- The calls a socket answers. -/
def Sock.calls (ds : List Delivery) : Calls where
  next i := ds[i]?
  ended i h := by
    rw [List.getElem?_eq_none_iff] at h ⊢
    omega
  interruptions := by
    refine ⟨ds.length, fun i hi => ?_⟩
    rw [List.getElem?_eq_none hi]
    simp

/-- The loop on a socket is the loop on its calls. -/
theorem recvFully_calls (ds : List Delivery) (fuel i errno len : Nat) (dest : Bytes) :
    (recvFully fuel ⟨ds.drop i, errno⟩ len dest).map (fun x => (x.1, x.2.1)) =
      (Sock.calls ds).recvFully fuel i errno len dest := by
  induction fuel generalizing i errno len dest with
  | zero => cases len <;> rfl
  | succ fuel ih =>
    cases len with
    | zero => rfl
    | succ len =>
      rcases Nat.lt_or_ge i ds.length with hi | hi
      · have hdrop := List.drop_eq_getElem_cons hi
        have hnext : (Sock.calls ds).next i = some ds[i] := List.getElem?_eq_getElem hi
        cases hd : ds[i] with
        | err e =>
          rw [hd] at hdrop hnext
          by_cases he : e = EINTR
          · simpa [recvFully, Calls.recvFully, Sock.recv, Calls.recv, hdrop, hnext, he] using
              ih (i + 1) EINTR (len + 1) dest
          · simp [recvFully, Calls.recvFully, Sock.recv, Calls.recv, hdrop, hnext, he]
        | data b ne =>
          rw [hd] at hdrop hnext
          have hpos : 0 < b.length := List.length_pos_iff.mpr ne
          by_cases hle : b.length ≤ len + 1
          · have hb : ¬ ((b.length : Int) ≤ 0) := by omega
            have htake : b.take (len + 1) = b := List.take_of_length_le hle
            simp only [recvFully, Calls.recvFully, Sock.recv, Calls.recv, hdrop, hnext, hle, htake, hb, dite_true,
              if_false]
            exact ih (i + 1) errno (len + 1 - b.length) (dest ++ b)
          · have hlen : (b.take (len + 1)).length = len + 1 := List.length_take_of_le (by omega)
            have hb : ¬ (((len + 1 : Nat) : Int) ≤ 0) := by omega
            simp only [recvFully, Calls.recvFully, Sock.recv, Calls.recv, hdrop, hnext, hle, hlen, hb, dite_false,
              if_false,
              Nat.sub_self, Option.map_some]
      · have hdrop : ds.drop i = ds.drop (i + 1) := by
          rw [List.drop_eq_nil_of_le hi, List.drop_eq_nil_of_le (by omega)]
        have hnil : ds.drop (i + 1) = [] := List.drop_eq_nil_of_le (by omega)
        have hnext : (Sock.calls ds).next i = none := List.getElem?_eq_none hi
        by_cases he : errno = EINTR
        · have hrest := ih (i + 1) EINTR (len + 1) dest
          rw [hnil] at hrest
          simpa [recvFully, Calls.recvFully, Sock.recv, Calls.recv, hdrop, hnil, hnext, he] using hrest
        · simp [recvFully, Calls.recvFully, Sock.recv, Calls.recv, hdrop, hnil, hnext, he]

end Mefsc.L1
