import Mefsc.L1Encoding.RecvFully
import Mefsc.L1Encoding.Unwrap

/-!
# The lengths of a received frame

`src/encryption_utils/SessionEnc.cpp:47-134` on any socket. The peer chooses the
64-bit length field; the reader constructor checks it before it receives into
`session_encrypted_data`, and `unwrap` compares `length - 16`, which wraps for a
length below the tag size, with `stream_chunk_size` and the caller's capacity.

* `SessionEncWrapper.read`: the reader constructor with everything a receive has
  stored, also one that fails. Up to the bytes of a corrupted wrapper it is
  `ofSock` (`execSock_ofSock`).
* `unwrapWith`: `unwrap` with any decryption routine in place of libsodium's, so
  that its calls can be counted (`counting`).
* `lengths_checked`: what is stored, when the routine is called, what is written.
-/
namespace Mefsc.L1

open Proc SessionEncWrapper

variable {σ ρ : Type}

/-! ## The reader constructor -/

namespace SessionEncWrapper

/-- The reader constructor; `none`: more than `fuel` calls of `recv` for one field.
mirrors src/encryption_utils/SessionEnc.cpp:47-84 -/
def read (fuel : Nat) (s : Sock) : Option (SessionEncWrapper × Sock) := do
  let (ok, lenBytes, s) ← recvFully fuel s 8 []
  if ok = false then return (⟨true, [], [], leDec lenBytes, .reader⟩, s)
  else if stream_chunk_size < leDec lenBytes then return (⟨true, [], [], leDec lenBytes, .reader⟩, s)
  else
    let (ok, nonce, s) ← recvFully fuel s AEAD_NPUBBYTES []
    if ok = false then return (⟨true, [], nonce, leDec lenBytes, .reader⟩, s)
    else
      let (ok, data, s) ← recvFully fuel s (leDec lenBytes) []
      return (⟨!ok, data, nonce, leDec lenBytes, .reader⟩, s)

/-- What a caller can see of a wrapper: nothing but the flag once it is corrupted. -/
def seen (w : SessionEncWrapper) : SessionEncWrapper := if w.corrupted then ⟨true, [], [], 0, .reader⟩ else w

end SessionEncWrapper

/-- All three fields arrive, the length being `len`. -/
def Arrives (fuel : Nat) (s : Sock) (len : Nat) : Prop :=
  ∃ lenBytes s1 nonce s2 data s3, recvFully fuel s 8 [] = some (true, lenBytes, s1) ∧ leDec lenBytes = len ∧
    recvFully fuel s1 AEAD_NPUBBYTES [] = some (true, nonce, s2) ∧ recvFully fuel s2 len [] = some (true, data, s3)

variable {fuel len : Nat} {s s' : Sock} {w : SessionEncWrapper} {ok : Bool} {dest b : Bytes}

/-- No receive stores more than it was asked for, and one that succeeds exactly that. -/
theorem recvFully_length (h : recvFully fuel s len dest = some (ok, b, s')) :
    b.length ≤ dest.length + len ∧ (ok = true → b.length = dest.length + len) := by
  induction fuel generalizing s len dest with
  | zero =>
    cases len with
    | zero =>
      obtain ⟨rfl, rfl, rfl⟩ : true = ok ∧ dest = b ∧ s = s' := by simpa [recvFully] using h
      simp
    | succ len => cases h
  | succ fuel ih =>
    cases len with
    | zero =>
      obtain ⟨rfl, rfl, rfl⟩ : true = ok ∧ dest = b ∧ s = s' := by simpa [recvFully] using h
      simp
    | succ len =>
      rw [recvFully] at h
      have hrecv := recv_length_le s (len + 1)
      split at h
      · split at h
        · exact ih h
        · obtain ⟨rfl, rfl, -⟩ : false = ok ∧ dest = b ∧ _ := by simpa using h
          simp
      · obtain ⟨hle, heq⟩ := ih h
        rw [List.length_append] at hle heq
        exact ⟨by omega, fun hok => by have := heq hok; omega⟩

/-- The ways the constructor ends. -/
inductive ReadTo (fuel : Nat) (s : Sock) : SessionEncWrapper → Sock → Prop where
  | noLength (b : Bytes) (s1 : Sock) (h : recvFully fuel s 8 [] = some (false, b, s1)) :
    ReadTo fuel s ⟨true, [], [], leDec b, .reader⟩ s1
  | tooLong (b : Bytes) (s1 : Sock) (h : recvFully fuel s 8 [] = some (true, b, s1))
      (hbig : stream_chunk_size < leDec b) : ReadTo fuel s ⟨true, [], [], leDec b, .reader⟩ s1
  | noNonce (b nonce : Bytes) (s1 s2 : Sock) (h : recvFully fuel s 8 [] = some (true, b, s1))
      (hn : recvFully fuel s1 AEAD_NPUBBYTES [] = some (false, nonce, s2)) :
    ReadTo fuel s ⟨true, [], nonce, leDec b, .reader⟩ s2
  | data (ok : Bool) (b nonce data : Bytes) (s1 s2 s3 : Sock) (h : recvFully fuel s 8 [] = some (true, b, s1))
      (hfit : leDec b ≤ stream_chunk_size) (hn : recvFully fuel s1 AEAD_NPUBBYTES [] = some (true, nonce, s2))
      (hd : recvFully fuel s2 (leDec b) [] = some (ok, data, s3)) :
    ReadTo fuel s ⟨!ok, data, nonce, leDec b, .reader⟩ s3

theorem read_to (h : SessionEncWrapper.read fuel s = some (w, s')) : ReadTo fuel s w s' := by
  unfold SessionEncWrapper.read at h
  obtain ⟨⟨ok, b, s1⟩, h1, h⟩ := Option.bind_eq_some_iff.mp h
  cases ok with
  | false =>
    obtain ⟨rfl, rfl⟩ : _ = w ∧ s1 = s' := by simpa using h
    exact .noLength b s1 h1
  | true =>
    simp only [Bool.true_eq_false, if_false] at h
    split at h
    · rename_i hbig
      obtain ⟨rfl, rfl⟩ : _ = w ∧ s1 = s' := by simpa using h
      exact .tooLong b s1 h1 hbig
    · rename_i hfit
      obtain ⟨⟨ok, nonce, s2⟩, h2, h⟩ := Option.bind_eq_some_iff.mp h
      cases ok with
      | false =>
        obtain ⟨rfl, rfl⟩ : _ = w ∧ s2 = s' := by simpa using h
        exact .noNonce b nonce s1 s2 h1 h2
      | true =>
        simp only [Bool.true_eq_false, if_false] at h
        obtain ⟨⟨ok, data, s3⟩, h3, h⟩ := Option.bind_eq_some_iff.mp h
        obtain ⟨rfl, rfl⟩ : _ = w ∧ s3 = s' := by simpa using h
        exact .data ok b nonce data s1 s2 s3 h1 (Nat.le_of_not_lt hfit) h2 h3

/-- Never more bytes than fit are stored. -/
theorem ReadTo.stored (h : ReadTo fuel s w s') : w.session_encrypted_data.length ≤ stream_chunk_size := by
  cases h with
  | noLength => simp
  | tooLong => simp
  | noNonce => simp
  | data ok b nonce data s1 s2 s3 _ hfit _ hd =>
    have hlen := (recvFully_length hd).1
    simp only [List.length_nil] at hlen
    dsimp only
    omega

theorem ReadTo.taken (h : ReadTo fuel s w s') (hc : w.corrupted = false) : Taken w := by
  cases h with
  | noLength => cases hc
  | tooLong => cases hc
  | noNonce => cases hc
  | data ok b nonce data s1 s2 s3 _ hfit _ hd =>
    obtain rfl : ok = true := by simpa using hc
    have hlen := (recvFully_length hd).2 rfl
    exact ⟨rfl, rfl, by simpa using hlen, hfit⟩

/-- The wrapper is not corrupted exactly when everything arrived, with a length that
was accepted. -/
theorem ReadTo.whole_iff (h : ReadTo fuel s w s') (len : Nat) :
    w.corrupted = false ∧ w.session_encrypted_data_length = len ↔ Arrives fuel s len ∧ len ≤ stream_chunk_size := by
  refine ⟨fun ⟨hc, hl⟩ => ?_, fun ⟨hw, hl⟩ => ?_⟩
  · cases h with
    | noLength => cases hc
    | tooLong => cases hc
    | noNonce => cases hc
    | data ok b nonce data s1 s2 s3 h1 hfit hn hd =>
      obtain rfl : ok = true := by simpa using hc
      obtain rfl : leDec b = len := hl
      exact ⟨⟨b, s1, nonce, s2, data, s', h1, rfl, hn, hd⟩, hfit⟩
  · obtain ⟨b', s1', nonce', s2', data', s3', e1, rfl, e2, e3⟩ := hw
    cases h with
    | noLength b s1 h1 => simp [h1] at e1
    | tooLong b s1 h1 hbig =>
      obtain ⟨rfl, -⟩ : b = b' ∧ s' = s1' := by simpa [h1] using e1
      omega
    | noNonce b nonce s1 s2 h1 hn =>
      obtain ⟨rfl, rfl⟩ : b = b' ∧ s1 = s1' := by simpa [h1] using e1
      simp [hn] at e2
    | data ok b nonce data s1 s2 s3 h1 hfit hn hd =>
      obtain ⟨rfl, rfl⟩ : b = b' ∧ s1 = s1' := by simpa [h1] using e1
      obtain ⟨rfl, rfl⟩ : nonce = nonce' ∧ s2 = s2' := by simpa [hn] using e2
      obtain ⟨rfl, -⟩ : ok = true ∧ _ := by simpa [hd] using e3
      exact ⟨rfl, rfl⟩

theorem execSock_recvN (n : Nat) (r : ρ) (m : Nat) {α : Type} (f : Option Bytes → Proc σ ρ α) (w : SockWorld σ) :
    execSock n (recvN r m >>= f) w = (recvFully n w.sock m []).bind fun x =>
      execSock n (f (if x.1 then some x.2.1 else none)) { w with sock := x.2.2 } := rfl

/-- On a socket `ofSock` is the constructor, up to what a corrupted wrapper holds. -/
theorem execSock_ofSock (n : Nat) (r : ρ) (st : σ) (s : Sock) (out : Bytes) :
    (execSock n (ofSock r) ⟨st, s, out⟩).map (fun x => (x.1.seen, x.2)) =
      (SessionEncWrapper.read n s).map fun x => (x.1.seen, ⟨st, x.2, out⟩) := by
  unfold ofSock SessionEncWrapper.read
  rw [execSock_recvN]
  cases recvFully n s 8 [] with
  | none => rfl
  | some x =>
    obtain ⟨ok, b, s1⟩ := x
    cases ok with
    | false => rfl
    | true =>
      simp only [Option.bind_eq_bind, Option.bind_some, if_true, Bool.true_eq_false, if_false]
      split
      · rfl
      rw [execSock_recvN]
      cases recvFully n s1 AEAD_NPUBBYTES [] with
      | none => rfl
      | some x =>
        obtain ⟨ok, nonce, s2⟩ := x
        cases ok with
        | false => rfl
        | true =>
          simp only [Option.bind_some, if_true, Bool.true_eq_false, if_false]
          rw [execSock_recvN]
          cases recvFully n s2 (leDec b) [] with
          | none => rfl
          | some x =>
            obtain ⟨ok, data, s3⟩ := x
            cases ok <;> rfl

/-! ## `unwrap` -/

/-- `unwrap` with any decryption routine: key, nonce, ciphertext and output buffer in,
return value, output buffer and output length out.
mirrors src/encryption_utils/SessionEnc.cpp:86-134 -/
def unwrapWith {m : Type → Type} [Monad m] (decrypt : Bytes → Bytes → Bytes → Bytes → m (Int × Bytes × Nat))
    (w : SessionEncWrapper) (rx : Bytes) (capacity : Nat) (decrypted_data : Bytes) (decrypted_data_len : Nat) :
    m Unwrapped := do
  if w.enc_wrap_type ≠ .reader then return ⟨-1, w, decrypted_data, decrypted_data_len⟩
  else if w.corrupted then return ⟨4, w, decrypted_data, decrypted_data_len⟩
  else if stream_chunk_size < sub64 w.session_encrypted_data_length AEAD_ABYTES then
    return ⟨3, w, decrypted_data, decrypted_data_len⟩
  else if capacity < sub64 w.session_encrypted_data_length AEAD_ABYTES then
    return ⟨2, { w with corrupted := true }, decrypted_data, decrypted_data_len⟩
  else
    let x ← decrypt rx w.nonce w.session_encrypted_data decrypted_data
    if x.1 ≠ 0 then return ⟨1, { w with corrupted := true }, x.2.1, x.2.2⟩
    else return ⟨0, w, x.2.1, x.2.2⟩

theorem unwrapWith_id (A : Aead) (w : SessionEncWrapper) (rx : Bytes) (cap : Nat) (buf : Bytes) (len : Nat) :
    Id.run (unwrapWith (fun k n c b => pure (aeadDecrypt A k n c b)) w rx cap buf len) =
      unwrap A w rx cap buf len := by
  unfold unwrapWith unwrap
  split
  · rfl
  split
  · rfl
  split
  · rfl
  split
  · rfl
  · simp only [pure_bind]
    split <;> rfl

/-- libsodium's routine, with its calls counted. -/
def counting (A : Aead) (key nonce c buf : Bytes) : StateM Nat (Int × Bytes × Nat) := do
  modify (· + 1)
  return aeadDecrypt A key nonce c buf

/-- A decryption writes at most as many bytes as the message may have. -/
theorem aeadDecrypt_writes (A : Aead) (key nonce c buf : Bytes) {cap : Nat} (hc : c.length ≤ cap + AEAD_ABYTES) :
    ∃ x, x.length ≤ cap ∧ (aeadDecrypt A key nonce c buf).2.1 = blit x buf := by
  unfold aeadDecrypt
  cases hd : A.decrypt key nonce c with
  | none => exact ⟨List.replicate (c.length - AEAD_ABYTES) 0, by simp; omega, rfl⟩
  | some m =>
    have hlen := A.decrypt_length _ _ _ _ hd
    exact ⟨m, by omega, rfl⟩

/-- The comparisons of `unwrap` let the frame through. -/
def Admitted (w : SessionEncWrapper) (cap : Nat) : Prop :=
  w.enc_wrap_type = .reader ∧ w.corrupted = false ∧
    sub64 w.session_encrypted_data_length AEAD_ABYTES ≤ stream_chunk_size ∧
    sub64 w.session_encrypted_data_length AEAD_ABYTES ≤ cap

instance (w : SessionEncWrapper) (cap : Nat) : Decidable (Admitted w cap) := inferInstanceAs (Decidable (_ ∧ _))

/-- The wrapped difference is on the rejecting side of both comparisons. -/
theorem Taken.admitted_iff (hw : Taken w) (cap : Nat) :
    Admitted w cap ↔ AEAD_ABYTES ≤ w.session_encrypted_data_length ∧
      w.session_encrypted_data_length ≤ min stream_chunk_size (cap + AEAD_ABYTES) := by
  have hb := hw.bound
  have hchunk : stream_chunk_size < 2 ^ 64 - AEAD_ABYTES := by decide
  have htag : AEAD_ABYTES < 2 ^ 64 := by decide
  unfold Admitted
  rcases Nat.lt_or_ge w.session_encrypted_data_length AEAD_ABYTES with hl | hl
  · rw [sub64_of_lt hl htag]
    refine iff_of_false (fun h => ?_) (fun h => ?_)
    · have := h.2.2.1
      omega
    · omega
  · rw [sub64_of_le hl (by omega)]
    refine ⟨fun ⟨_, _, _, hcap⟩ => ⟨hl, ?_⟩, fun ⟨_, hmin⟩ => ⟨hw.reader, hw.whole, ?_, ?_⟩⟩ <;> omega

section
variable (A : Aead) (rx : Bytes) (cap : Nat) (buf : Bytes) (len : Nat)

/-- The routine is called, once, when the frame passes. -/
theorem unwrapWith_counting (w : SessionEncWrapper) :
    (unwrapWith (counting A) w rx cap buf len).run 0 =
      (unwrap A w rx cap buf len, if Admitted w cap then 1 else 0) := by
  unfold unwrapWith unwrap
  by_cases hr : w.enc_wrap_type = .reader
  swap
  · have hp : ¬ Admitted w cap := fun h => hr h.1
    simp only [ne_eq, hr, not_false_eq_true, if_true, hp, if_false]
    rfl
  cases hc : w.corrupted with
  | true =>
    have hp : ¬ Admitted w cap := fun h => by have := h.2.1; simp [hc] at this
    simp only [ne_eq, hr, not_true_eq_false, hp, if_true, if_false]
    rfl
  | false =>
    by_cases hs : stream_chunk_size < sub64 w.session_encrypted_data_length AEAD_ABYTES
    · have hp : ¬ Admitted w cap := fun h => Nat.not_lt.mpr h.2.2.1 hs
      simp only [ne_eq, hr, not_true_eq_false, hp, hs, Bool.false_eq_true, if_true, if_false]
      rfl
    by_cases hl : cap < sub64 w.session_encrypted_data_length AEAD_ABYTES
    · have hp : ¬ Admitted w cap := fun h => Nat.not_lt.mpr h.2.2.2 hl
      simp only [ne_eq, hr, not_true_eq_false, hp, hs, hl, Bool.false_eq_true, if_true, if_false]
      rfl
    have hp : Admitted w cap := ⟨hr, hc, Nat.le_of_not_lt hs, Nat.le_of_not_lt hl⟩
    simp only [ne_eq, hr, not_true_eq_false, hp, hs, hl, Bool.false_eq_true, if_true, if_false]
    -- the counter is read off the end of the run
    split
    · rename_i hd
      simp only [counting, StateT.run_bind, StateT.run_modify, StateT.run_pure, pure_bind, hd, not_false_eq_true,
        if_true]
      rfl
    · rename_i hd
      simp only [counting, StateT.run_bind, StateT.run_modify, StateT.run_pure, pure_bind, hd, if_false]
      rfl

/-- A frame that does not pass is refused with nothing written. -/
theorem unwrap_refuses (h : ¬ Admitted w cap) :
    (unwrap A w rx cap buf len).ret ≠ 0 ∧ (unwrap A w rx cap buf len).decrypted_data = buf ∧
      (unwrap A w rx cap buf len).decrypted_data_len = len := by
  unfold unwrap
  split
  · exact ⟨by simp, rfl, rfl⟩
  split
  · exact ⟨by simp, rfl, rfl⟩
  split
  · exact ⟨by simp, rfl, rfl⟩
  split
  · exact ⟨by simp, rfl, rfl⟩
  · rename_i hr hc hs hl
    exact absurd ⟨not_not.mp hr, by simpa using hc, Nat.le_of_not_lt hs, Nat.le_of_not_lt hl⟩ h

/-- One that passes writes at most `cap` bytes. -/
theorem unwrap_writes (hw : Taken w) (h : Admitted w cap) :
    ∃ x, x.length ≤ cap ∧ (unwrap A w rx cap buf len).decrypted_data = blit x buf := by
  have hbound := ((hw.admitted_iff cap).mp h).2
  have hlen : w.session_encrypted_data.length ≤ cap + AEAD_ABYTES := by
    rw [hw.length]
    omega
  obtain ⟨x, hx, hwrite⟩ := aeadDecrypt_writes A rx w.nonce w.session_encrypted_data buf hlen
  refine ⟨x, hx, ?_⟩
  unfold unwrap
  obtain ⟨hr, hc, hs, hl⟩ := h
  rw [if_neg (not_not.mpr hr), if_neg (by simp [hc]), if_neg (Nat.not_lt.mpr hs), if_neg (Nat.not_lt.mpr hl)]
  dsimp only
  split <;> exact hwrite

end

/-- The constructor stores at most `stream_chunk_size` bytes. `unwrap` calls the
decryption, once, exactly when the frame arrived in full with a length between the tag
and what the chunk size and the capacity allow, and then writes at most `cap` bytes;
else it returns non-zero and has written nothing. -/
theorem lengths_checked {fuel : Nat} {s s' : Sock} {w : SessionEncWrapper}
    (hread : SessionEncWrapper.read fuel s = some (w, s')) (A : Aead) (rx : Bytes) (cap : Nat) (buf : Bytes)
    (len : Nat) :
    w.session_encrypted_data.length ≤ stream_chunk_size ∧
    ∃ u calls, (unwrapWith (counting A) w rx cap buf len).run 0 = (u, calls) ∧ u = unwrap A w rx cap buf len ∧
      (calls = 1 ∧ (∃ x, x.length ≤ cap ∧ u.decrypted_data = blit x buf) ∨
        calls = 0 ∧ u.ret ≠ 0 ∧ u.decrypted_data = buf ∧ u.decrypted_data_len = len) ∧
      (calls = 1 ↔ ∃ l, Arrives fuel s l ∧ AEAD_ABYTES ≤ l ∧ l ≤ min stream_chunk_size (cap + AEAD_ABYTES)) := by
  have hto := read_to hread
  refine ⟨hto.stored, _, _, unwrapWith_counting A rx cap buf len w, rfl, ?_, ?_⟩
  · by_cases hp : Admitted w cap
    · rw [if_pos hp]
      exact .inl ⟨rfl, unwrap_writes A rx cap buf len (hto.taken hp.2.1) hp⟩
    · rw [if_neg hp]
      exact .inr ⟨rfl, unwrap_refuses A rx cap buf len hp⟩
  · have hcalls : (if Admitted w cap then 1 else 0) = 1 ↔ Admitted w cap := by simp
    rw [hcalls]
    refine ⟨fun hp => ?_, fun ⟨l, hwhole, hlow, hhigh⟩ => ?_⟩
    · have hwhole := ((hto.whole_iff _).mp ⟨hp.2.1, rfl⟩).1
      exact ⟨_, hwhole, ((hto.taken hp.2.1).admitted_iff cap).mp hp⟩
    · obtain ⟨hc, rfl⟩ := (hto.whole_iff l).mpr ⟨hwhole, by omega⟩
      exact ((hto.taken hc).admitted_iff cap).mpr ⟨hlow, hhigh⟩

/-- A length of 5, below the tag size. -/
def stubSock : Sock := ⟨[.data (u64Enc 5 ++ u64Enc 0 ++ [1, 2, 3, 4, 5]) (by decide)], 0⟩

theorem lengths_checked_stub :
    ∃ w s', SessionEncWrapper.read 4 stubSock = some (w, s') ∧ Arrives 4 stubSock 5 ∧
      ((unwrapWith (counting plainAead) w [3] 4 [0, 0, 0, 0] 9).run 0).2 ≠ 1 := by
  have hread : SessionEncWrapper.read 4 stubSock =
      some (⟨false, [1, 2, 3, 4, 5], u64Enc 0, 5, .reader⟩, ⟨[], 0⟩) := by rfl
  obtain ⟨-, u, calls, hrun, -, -, hcalls⟩ := lengths_checked hread plainAead [3] 4 [0, 0, 0, 0] 9
  have hwhole := ((read_to hread).whole_iff 5).mp ⟨rfl, rfl⟩
  refine ⟨_, _, hread, hwhole.1, ?_⟩
  rw [hrun]
  intro h
  obtain ⟨l, hl, hlow, hhigh⟩ := hcalls.mp h
  obtain ⟨-, hfive⟩ := ((read_to hread).whole_iff l).mpr ⟨hl, by omega⟩
  rw [← hfive] at hlow
  exact absurd hlow (by decide)

end Mefsc.L1
