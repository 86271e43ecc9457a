import Mefsc.Core.Proc
import Mefsc.L1Encoding.Sodium

/-!
# `SessionEncWrapper` and raw blobs

`src/encryption_utils/SessionEnc.cpp` and `encryption_utils.cpp`. A session
frame on the wire is the 8-byte length of the ciphertext, the 8-byte nonce and
the ciphertext; a raw blob is an 8-byte length and the bytes.

* `frame`: the bytes `send_all` puts on the wire; `blob`: those of
  `send_raw_blob`.
* `ofSock` is the reader constructor. A whole frame is read back
  (`runs_ofSock_frame`); on any bytes it does what `takeFrame` says, or reports
  the end of the stream (`ofSock_cases`).
* `unwrap` returns its code, what the caller's buffer and length variable hold
  afterwards, and the wrapper. The comparisons are on `unsigned long long`.
  A failed AEAD verification clears the part of the buffer the message would
  have filled and sets the length to 0; the other failures touch neither.
-/
namespace Mefsc.L1

open Proc

variable {σ ρ : Type}

/-- mirrors include/common/SessionEnc.h:11 -/
inductive WrapType where
  | reader | sender
  deriving DecidableEq, Repr

/-- mirrors include/common/SessionEnc.h:13-20 -/
structure SessionEncWrapper where
  corrupted : Bool := true
  session_encrypted_data : Bytes
  nonce : Bytes
  session_encrypted_data_length : Nat
  enc_wrap_type : WrapType
  deriving DecidableEq, Repr

/-- `sodium_increment` on an 8-byte little-endian counter. -/
def sodiumIncrement (nonce : Bytes) : Bytes := leEnc AEAD_NPUBBYTES (leDec nonce + 1)

@[simp] theorem sodiumIncrement_length (n : Bytes) : (sodiumIncrement n).length = 8 := by
  simp [sodiumIncrement, AEAD_NPUBBYTES]

/-- Returns the ciphertext and the advanced nonce.
mirrors src/encryption_utils/encryption_utils.cpp:29-46 -/
def encryptStreamBuffer (A : Aead) (tx nonce message : Bytes) : Bytes × Bytes :=
  let nonce := sodiumIncrement nonce
  (A.encrypt tx nonce message, nonce)

namespace SessionEncWrapper

/-- The writer constructor, and the caller's nonce afterwards. A message of more than
65553 bytes (an overlong name) overflows the array of `stream_chunk_size` bytes,
which is undefined behaviour; here the wrapper holds it.
mirrors src/encryption_utils/SessionEnc.cpp:23-45 -/
def ofData (A : Aead) (data tx nonce : Bytes) : SessionEncWrapper × Bytes :=
  let (c, nonce) := encryptStreamBuffer A tx nonce data
  ({ corrupted := false, session_encrypted_data := c, nonce := nonce,
     session_encrypted_data_length := c.length, enc_wrap_type := .sender }, nonce)

/-- The reader constructor.
mirrors src/encryption_utils/SessionEnc.cpp:47-84 -/
def ofSock (r : ρ) : Proc σ ρ SessionEncWrapper := do
  match ← recvN r 8 with
  | none => return ⟨true, [], [], 0, .reader⟩
  | some lenBytes =>
    let len := leDec lenBytes
    if stream_chunk_size < len then return ⟨true, [], [], len, .reader⟩
    else
      match ← recvN r AEAD_NPUBBYTES with
      | none => return ⟨true, [], [], len, .reader⟩
      | some nonce =>
        match ← recvN r len with
        | none => return ⟨true, [], nonce, len, .reader⟩
        | some data => return ⟨false, data, nonce, len, .reader⟩

structure Unwrapped where
  ret : Int
  wrapper : SessionEncWrapper
  decrypted_data : Bytes
  decrypted_data_len : Nat
  deriving DecidableEq, Repr

/-- `crypto_aead_chacha20poly1305_decrypt`: return value, output buffer and
output length. -/
def aeadDecrypt (A : Aead) (key nonce c buf : Bytes) : Int × Bytes × Nat :=
  match A.decrypt key nonce c with
  | some m => (0, blit m buf, m.length)
  | none => (-1, blit (List.replicate (c.length - AEAD_ABYTES) 0) buf, 0)

/-- mirrors src/encryption_utils/SessionEnc.cpp:86-134 -/
def unwrap (A : Aead) (w : SessionEncWrapper) (rx : Bytes) (capacity : Nat)
    (decrypted_data : Bytes) (decrypted_data_len : Nat) : Unwrapped :=
  if w.enc_wrap_type ≠ .reader then ⟨-1, w, decrypted_data, decrypted_data_len⟩
  else if w.corrupted then ⟨4, w, decrypted_data, decrypted_data_len⟩
  else if stream_chunk_size < sub64 w.session_encrypted_data_length AEAD_ABYTES then
    ⟨3, w, decrypted_data, decrypted_data_len⟩
  else if capacity < sub64 w.session_encrypted_data_length AEAD_ABYTES then
    ⟨2, { w with corrupted := true }, decrypted_data, decrypted_data_len⟩
  else
    let x := aeadDecrypt A rx w.nonce w.session_encrypted_data decrypted_data
    if x.1 ≠ 0 then ⟨1, { w with corrupted := true }, x.2.1, x.2.2⟩
    else ⟨0, w, x.2.1, x.2.2⟩

/-- mirrors src/encryption_utils/SessionEnc.cpp:172-193 -/
def sendAll (r : ρ) (w : SessionEncWrapper) : Proc σ ρ Int := do
  if w.enc_wrap_type ≠ .sender then return -1
  else
    let buf := u64Enc w.session_encrypted_data_length ++ w.nonce ++ w.session_encrypted_data
    match ← sendB r buf with
    | none => return -1
    | some n => return n

end SessionEncWrapper

open SessionEncWrapper

/-- mirrors src/encryption_utils/encryption_utils.cpp:6-14 -/
def sendRawBlob (r : ρ) (data : Bytes) : Proc σ ρ Int := do
  if (← sendB r (u64Enc data.length)) ≠ some 8 then return 1
  else if data = [] then return 0
  else if (← sendB r data) ≠ some data.length then return 1
  else return 0

/-- The bytes stored and `*out_len`; `none` for return value 1.
mirrors src/encryption_utils/encryption_utils.cpp:16-27 -/
def recvRawBlob (r : ρ) (cap : Nat) : Proc σ ρ (Option Bytes) := do
  match ← recvN r 8 with
  | none => return none
  | some nBytes =>
    let n := leDec nBytes
    if cap < n then return none
    else if n = 0 then return some []
    else recvN r n

/-! ## The bytes on the wire -/

/-- A session frame with nonce `n` (already advanced); as with `ofData`, for messages
of up to 65553 bytes. -/
def frame (A : Aead) (tx n m : Bytes) : Bytes :=
  u64Enc (A.encrypt tx n m).length ++ n ++ A.encrypt tx n m

def blob (b : Bytes) : Bytes := u64Enc b.length ++ b

/-- Write one message as a session frame; the nonce afterwards. -/
def sendFrame (A : Aead) (r : ρ) (m tx nonce : Bytes) : Proc σ ρ Bytes := do
  let (w, nonce) := ofData A m tx nonce
  let _ ← w.sendAll r
  return nonce

/-- The wrapper a reader makes of such a frame. -/
def received (A : Aead) (tx n m : Bytes) : SessionEncWrapper :=
  ⟨false, A.encrypt tx n m, n, (A.encrypt tx n m).length, .reader⟩

@[simp] theorem received_corrupted (A : Aead) (tx n m : Bytes) :
    (received A tx n m).corrupted = false := rfl

/-! ## What one transfer does -/

section
variable (st : σ) (e : Bool) (h : List (Ev ρ))

theorem runs_recvN_append (r : ρ) (b rest : Bytes) :
    Runs (recvN r b.length) ⟨st, b ++ rest, e, h, []⟩ (some b)
      ⟨st, rest, e, h ++ [.rcv r (some b)], []⟩ := by
  rw [runs_recvN]
  simp [World.recv]

theorem runs_sendB_all (r : ρ) (inp b : Bytes) :
    Runs (sendB r b) ⟨st, inp, e, h, []⟩ (some b.length) ⟨st, inp, e, h ++ [.snd r b], []⟩ := by
  rw [runs_sendB]
  simp [World.send]

theorem runs_sendFrame (A : Aead) (r : ρ) (inp m tx nonce : Bytes) :
    Runs (sendFrame A r m tx nonce) ⟨st, inp, e, h, []⟩ (sodiumIncrement nonce)
      ⟨st, inp, e, h ++ [.snd r (frame A tx (sodiumIncrement nonce) m)], []⟩ := by
  refine Runs.bind (a := ((frame A tx (sodiumIncrement nonce) m).length : Int)) ?_
    ((runs_pure _ _ _ _).mpr ⟨rfl, rfl⟩)
  simp only [sendAll, ne_eq, not_true_eq_false, if_false]
  exact Runs.bind (runs_sendB_all st e h r inp _) ((runs_pure _ _ _ _).mpr ⟨rfl, rfl⟩)

/-- The events of a raw blob on the sending side. -/
def blobEvs (r : ρ) (b : Bytes) : List (Ev ρ) :=
  .snd r (u64Enc b.length) :: if b = [] then [] else [.snd r b]

/-- The events of a raw blob on the receiving side. -/
def blobRcvs (r : ρ) (b : Bytes) : List (Ev ρ) :=
  .rcv r (some (u64Enc b.length)) :: if b = [] then [] else [.rcv r (some b)]

/-- The events of a session frame on the receiving side. -/
def frameRcvs (A : Aead) (r : ρ) (tx n m : Bytes) : List (Ev ρ) :=
  [.rcv r (some (u64Enc (A.encrypt tx n m).length)), .rcv r (some n),
    .rcv r (some (A.encrypt tx n m))]

theorem runs_sendRawBlob (r : ρ) (inp b : Bytes) :
    Runs (sendRawBlob r b) ⟨st, inp, e, h, []⟩ 0 ⟨st, inp, e, h ++ blobEvs r b, []⟩ := by
  unfold sendRawBlob
  refine Runs.bind (runs_sendB_all st e h r inp _) ?_
  simp only [u64Enc_length, ne_eq, not_true_eq_false, if_false]
  by_cases hb : b = []
  · simp [hb, blobEvs]
  · simp only [hb, if_false]
    refine Runs.bind (runs_sendB_all st e _ r inp b) ?_
    simp [blobEvs, hb]

theorem runs_recvRawBlob (r : ρ) {cap : Nat} {b : Bytes} (hc : b.length ≤ cap)
    (h64 : b.length < 2 ^ 64) (rest : Bytes) :
    Runs (recvRawBlob r cap) ⟨st, blob b ++ rest, e, h, []⟩ (some b)
      ⟨st, rest, e, h ++ blobRcvs r b, []⟩ := by
  unfold recvRawBlob blob
  have h8 := runs_recvN_append st e h r (u64Enc b.length) (b ++ rest)
  rw [u64Enc_length, ← List.append_assoc] at h8
  refine Runs.bind h8 ?_
  simp only [leDec_u64Enc h64, Nat.not_lt.mpr hc, if_false, List.length_eq_zero_iff]
  by_cases hb : b = []
  · simp [hb, blobRcvs]
  · simp only [hb, if_false]
    have hr := runs_recvN_append st e (h ++ [.rcv r (some (u64Enc b.length))]) r b rest
    rw [List.append_assoc] at hr
    simpa [blobRcvs, hb] using hr

/-- A whole frame of at most `FILE_ENCRYPTED_CHUNK_SIZE` message bytes is read
back as it was written. -/
theorem runs_ofSock_frame (A : Aead) (r : ρ) (tx : Bytes) {n m : Bytes} (hn : n.length = 8)
    (hm : m.length ≤ FILE_ENCRYPTED_CHUNK_SIZE) (rest : Bytes) :
    Runs (ofSock r) ⟨st, frame A tx n m ++ rest, e, h, []⟩ (received A tx n m)
      ⟨st, rest, e, h ++ frameRcvs A r tx n m, []⟩ := by
  have hl : (A.encrypt tx n m).length ≤ stream_chunk_size := by
    rw [A.encrypt_length]
    simp only [stream_chunk_size, FILE_ENCRYPTED_CHUNK_SIZE] at hm ⊢
    omega
  have h64 : (A.encrypt tx n m).length < 2 ^ 64 := Nat.lt_of_le_of_lt hl (by decide)
  unfold ofSock frame
  have h8 := runs_recvN_append st e h r (u64Enc (A.encrypt tx n m).length)
    (n ++ A.encrypt tx n m ++ rest)
  rw [u64Enc_length] at h8
  refine Runs.bind (by simpa [List.append_assoc] using h8) ?_
  simp only [leDec_u64Enc h64, Nat.not_lt.mpr hl, if_false]
  have hn8 := runs_recvN_append st e (h ++ [.rcv r (some (u64Enc (A.encrypt tx n m).length))]) r n
    (A.encrypt tx n m ++ rest)
  rw [hn] at hn8
  refine Runs.bind hn8 ?_
  refine Runs.bind (runs_recvN_append st e _ r (A.encrypt tx n m) rest) ?_
  simp [frameRcvs, received]

/-- Reading a whole frame, and going on. -/
theorem Runs.ofSock_bind {α : Type} {A : Aead} {r : ρ} {tx n m : Bytes} (hn : n.length = 8)
    (hm : m.length ≤ FILE_ENCRYPTED_CHUNK_SIZE) {rest : Bytes}
    {f : SessionEncWrapper → Proc σ ρ α} {a : α} {w : World σ ρ}
    (hk : Runs (f (received A tx n m)) ⟨st, rest, e, h ++ frameRcvs A r tx n m, []⟩ a w) :
    Runs (ofSock r >>= f) ⟨st, frame A tx n m ++ rest, e, h, []⟩ a w :=
  Runs.bind (runs_ofSock_frame st e h A r tx hn hm rest) hk

end

/-! ## Any bytes -/

/-- The wrapper at the front of a byte stream, and what is behind it; `none`:
the stream is too short. A length field that is too large is all that is
read. -/
def takeFrame (inp : Bytes) : Option (SessionEncWrapper × Bytes) :=
  if inp.length < 8 then none
  else if stream_chunk_size < leDec (inp.take 8) then
    some (⟨true, [], [], leDec (inp.take 8), .reader⟩, inp.drop 8)
  else if (inp.drop 8).length < AEAD_NPUBBYTES then none
  else if ((inp.drop 8).drop AEAD_NPUBBYTES).length < leDec (inp.take 8) then none
  else
    some (⟨false, ((inp.drop 8).drop AEAD_NPUBBYTES).take (leDec (inp.take 8)),
      (inp.drop 8).take AEAD_NPUBBYTES, leDec (inp.take 8), .reader⟩,
      ((inp.drop 8).drop AEAD_NPUBBYTES).drop (leDec (inp.take 8)))

/-- The blob at the front of a byte stream, and what is behind it; `none`: it
is longer than `cap` or the stream is too short. -/
def takeBlob (cap : Nat) (inp : Bytes) : Option (Bytes × Bytes) :=
  if inp.length < 8 then none
  else if cap < leDec (inp.take 8) then none
  else if (inp.drop 8).length < leDec (inp.take 8) then none
  else some ((inp.drop 8).take (leDec (inp.take 8)), (inp.drop 8).drop (leDec (inp.take 8)))

section
variable {st : σ} {inp : Bytes} {e : Bool} {h : List (Ev ρ)} {os : List (Option Nat)}

theorem recvN_cases {r : ρ} {n : Nat} {o : Option Bytes} {w : World σ ρ}
    (hx : Runs (recvN r n) ⟨st, inp, e, h, os⟩ o w) :
    (n ≤ inp.length ∧ o = some (inp.take n) ∧
      w = ⟨st, inp.drop n, e, h ++ [.rcv r (some (inp.take n))], os⟩) ∨
    (inp.length < n ∧ e = true ∧ o = none ∧ w = ⟨st, [], e, h ++ [.rcv r none], os⟩) := by
  rw [runs_recvN] at hx
  unfold World.recv at hx
  split at hx
  · rename_i hn
    simp only [Option.some.injEq, Prod.mk.injEq] at hx
    exact .inl ⟨hn, hx.1.symm, hx.2.symm⟩
  · rename_i hn
    split at hx
    · rename_i he
      simp only [Option.some.injEq, Prod.mk.injEq] at hx
      exact .inr ⟨Nat.lt_of_not_le hn, he, hx.1.symm, hx.2.symm⟩
    · cases hx

/-- What the reader constructor returns on any bytes. -/
theorem ofSock_cases {r : ρ} {w : SessionEncWrapper} {w1 : World σ ρ}
    (hx : Runs (ofSock r) ⟨st, inp, e, h, os⟩ w w1) :
    ∃ rest evs, w1 = ⟨st, rest, e, h ++ evs, os⟩ ∧
      (takeFrame inp = some (w, rest) ∨
        takeFrame inp = none ∧ e = true ∧ w.corrupted = true ∧ rest = []) := by
  unfold ofSock at hx
  rw [runs_bind] at hx
  obtain ⟨o, w2, h1, hx⟩ := hx
  rcases recvN_cases h1 with ⟨hn, rfl, rfl⟩ | ⟨hn, he, rfl, rfl⟩
  · simp only at hx
    split at hx
    · rename_i hbig
      obtain ⟨rfl, rfl⟩ := (runs_pure _ _ _ _).mp hx
      exact ⟨_, _, rfl, .inl (by simp [takeFrame, Nat.not_lt.mpr hn, hbig])⟩
    · rename_i hbig
      rw [runs_bind] at hx
      obtain ⟨o, w3, h2, hx⟩ := hx
      rcases recvN_cases h2 with ⟨hn2, rfl, rfl⟩ | ⟨hn2, he, rfl, rfl⟩
      · simp only at hx
        rw [runs_bind] at hx
        obtain ⟨o, w4, h3, hx⟩ := hx
        rcases recvN_cases h3 with ⟨hn3, rfl, rfl⟩ | ⟨hn3, he, rfl, rfl⟩
        · obtain ⟨rfl, rfl⟩ := (runs_pure _ _ _ _).mp hx
          refine ⟨_, _, by rw [List.append_assoc, List.append_assoc], .inl ?_⟩
          simp only [takeFrame, Nat.not_lt.mpr hn, Nat.not_lt.mpr hn2, Nat.not_lt.mpr hn3, hbig, if_false]
        · obtain ⟨rfl, rfl⟩ := (runs_pure _ _ _ _).mp hx
          refine ⟨_, _, by rw [List.append_assoc, List.append_assoc], .inr ⟨?_, he, rfl, rfl⟩⟩
          simp only [takeFrame, Nat.not_lt.mpr hn, Nat.not_lt.mpr hn2, hn3, hbig, if_false, if_true]
      · obtain ⟨rfl, rfl⟩ := (runs_pure _ _ _ _).mp hx
        refine ⟨_, _, by rw [List.append_assoc], .inr ⟨?_, he, rfl, rfl⟩⟩
        simp only [takeFrame, Nat.not_lt.mpr hn, hn2, hbig, if_false, if_true]
  · obtain ⟨rfl, rfl⟩ := (runs_pure _ _ _ _).mp hx
    exact ⟨_, _, rfl, .inr ⟨by simp [takeFrame, hn], he, rfl, rfl⟩⟩

theorem runs_recvN_take {r : ρ} {n : Nat} (hn : n ≤ inp.length) :
    Runs (recvN r n) ⟨st, inp, e, h, os⟩ (some (inp.take n))
      ⟨st, inp.drop n, e, h ++ [.rcv r (some (inp.take n))], os⟩ := by
  rw [runs_recvN]
  simp [World.recv, hn]

variable (st e h os) in
theorem runs_ofSock_take (r : ρ) {w : SessionEncWrapper} {rest : Bytes}
    (ht : takeFrame inp = some (w, rest)) :
    ∃ evs, Runs (ofSock r) ⟨st, inp, e, h, os⟩ w ⟨st, rest, e, h ++ evs, os⟩ := by
  unfold takeFrame at ht
  split at ht
  · cases ht
  · rename_i h1
    split at ht
    · rename_i h2
      obtain ⟨rfl, rfl⟩ : _ = w ∧ _ = rest := by simpa using ht
      refine ⟨[.rcv r (some (inp.take 8))], Runs.bind (runs_recvN_take (Nat.le_of_not_lt h1)) ?_⟩
      simp only [h2, if_true]
      exact (runs_pure _ _ _ _).mpr ⟨rfl, rfl⟩
    · rename_i h2
      split at ht
      · cases ht
      · rename_i h3
        split at ht
        · cases ht
        · rename_i h4
          simp only [Option.some.injEq, Prod.mk.injEq] at ht
          obtain ⟨rfl, rfl⟩ := ht
          refine ⟨[.rcv r (some (inp.take 8))] ++ ([.rcv r (some ((inp.drop 8).take AEAD_NPUBBYTES))] ++
            [.rcv r (some (((inp.drop 8).drop AEAD_NPUBBYTES).take (leDec (inp.take 8))))]),
            Runs.bind (runs_recvN_take (Nat.le_of_not_lt h1)) ?_⟩
          simp only [h2, if_false]
          refine Runs.bind (runs_recvN_take (Nat.le_of_not_lt h3)) ?_
          refine Runs.bind (runs_recvN_take (Nat.le_of_not_lt h4)) ?_
          rw [List.append_assoc, List.append_assoc]
          exact (runs_pure _ _ _ _).mpr ⟨rfl, rfl⟩

theorem runs_recvN_eof {r : ρ} {n : Nat} (hn : inp.length < n) :
    Runs (recvN r n) ⟨st, inp, true, h, os⟩ none ⟨st, [], true, h ++ [.rcv r none], os⟩ := by
  rw [runs_recvN]
  simp [World.recv, Nat.not_le.mpr hn]

variable (st h os) in
/-- On a closed stream that is too short for a frame. -/
theorem runs_ofSock_eof (r : ρ) (ht : takeFrame inp = none) :
    ∃ w evs, w.corrupted = true ∧
      Runs (ofSock r) ⟨st, inp, true, h, os⟩ w ⟨st, [], true, h ++ evs, os⟩ := by
  unfold takeFrame at ht
  split at ht
  · rename_i h1
    refine ⟨_, _, ?_, Runs.bind (runs_recvN_eof h1) ((runs_pure _ _ _ _).mpr ⟨rfl, rfl⟩)⟩
    rfl
  · rename_i h1
    have r1 : Runs (recvN r 8) ⟨st, inp, true, h, os⟩ (some (inp.take 8)) _ :=
      runs_recvN_take (Nat.le_of_not_lt h1)
    split at ht
    · cases ht
    · rename_i h2
      split at ht
      · rename_i h3
        refine ⟨⟨true, [], [], leDec (inp.take 8), .reader⟩,
          [.rcv r (some (inp.take 8))] ++ [.rcv r none], rfl, Runs.bind r1 ?_⟩
        simp only [h2, if_false]
        refine Runs.bind (runs_recvN_eof h3) ?_
        rw [List.append_assoc]
        exact (runs_pure _ _ _ _).mpr ⟨rfl, rfl⟩
      · rename_i h3
        split at ht
        · rename_i h4
          refine ⟨⟨true, [], (inp.drop 8).take AEAD_NPUBBYTES, leDec (inp.take 8), .reader⟩,
            [.rcv r (some (inp.take 8))] ++ ([.rcv r (some ((inp.drop 8).take AEAD_NPUBBYTES))] ++
              [.rcv r none]), rfl, Runs.bind r1 ?_⟩
          simp only [h2, if_false]
          refine Runs.bind (runs_recvN_take (Nat.le_of_not_lt h3)) ?_
          refine Runs.bind (runs_recvN_eof h4) ?_
          rw [List.append_assoc, List.append_assoc]
          exact (runs_pure _ _ _ _).mpr ⟨rfl, rfl⟩
        · cases ht

theorem recvRawBlob_cases {r : ρ} {cap : Nat} {o : Option Bytes} {w : World σ ρ}
    (hx : Runs (recvRawBlob r cap) ⟨st, inp, e, h, os⟩ o w) :
    ∃ rest evs, w = ⟨st, rest, e, h ++ evs, os⟩ ∧
      (o = none ∧ takeBlob cap inp = none ∨ ∃ b, o = some b ∧ takeBlob cap inp = some (b, rest)) := by
  unfold recvRawBlob at hx
  rw [runs_bind] at hx
  obtain ⟨o', w2, h1, hx⟩ := hx
  rcases recvN_cases h1 with ⟨hn, rfl, rfl⟩ | ⟨hn, he, rfl, rfl⟩
  · simp only at hx
    split at hx
    · rename_i hbig
      obtain ⟨rfl, rfl⟩ := (runs_pure _ _ _ _).mp hx
      exact ⟨_, _, rfl, .inl ⟨rfl, by simp [takeBlob, Nat.not_lt.mpr hn, hbig]⟩⟩
    · rename_i hbig
      split at hx
      · rename_i h0
        obtain ⟨rfl, rfl⟩ := (runs_pure _ _ _ _).mp hx
        exact ⟨_, _, rfl, .inr ⟨[], rfl, by simp [takeBlob, Nat.not_lt.mpr hn, h0]⟩⟩
      · rcases recvN_cases hx with ⟨hn2, rfl, rfl⟩ | ⟨hn2, he, rfl, rfl⟩
        · refine ⟨_, _, by rw [List.append_assoc], .inr ⟨_, rfl, ?_⟩⟩
          simp only [takeBlob, Nat.not_lt.mpr hn, Nat.not_lt.mpr hn2, hbig, if_false]
        · refine ⟨_, _, by rw [List.append_assoc], .inl ⟨rfl, ?_⟩⟩
          simp only [takeBlob, Nat.not_lt.mpr hn, hn2, hbig, if_false, if_true]
  · obtain ⟨rfl, rfl⟩ := (runs_pure _ _ _ _).mp hx
    exact ⟨_, _, rfl, .inl ⟨rfl, by simp [takeBlob, hn]⟩⟩

variable (st e h os) in
theorem runs_recvRawBlob_take (r : ρ) {cap : Nat} {b rest : Bytes}
    (ht : takeBlob cap inp = some (b, rest)) :
    ∃ evs, Runs (recvRawBlob r cap) ⟨st, inp, e, h, os⟩ (some b) ⟨st, rest, e, h ++ evs, os⟩ := by
  unfold takeBlob at ht
  split at ht
  · cases ht
  · rename_i h1
    split at ht
    · cases ht
    · rename_i h2
      split at ht
      · cases ht
      · rename_i h3
        simp only [Option.some.injEq, Prod.mk.injEq] at ht
        obtain ⟨rfl, rfl⟩ := ht
        by_cases h0 : leDec (inp.take 8) = 0
        · refine ⟨[.rcv r (some (inp.take 8))], Runs.bind (runs_recvN_take (Nat.le_of_not_lt h1)) ?_⟩
          simp only [h0, Nat.not_lt_zero, if_false, if_true]
          exact (runs_pure _ _ _ _).mpr ⟨by simp, by simp⟩
        · refine ⟨[.rcv r (some (inp.take 8))] ++ [.rcv r (some ((inp.drop 8).take (leDec (inp.take 8))))],
            Runs.bind (runs_recvN_take (Nat.le_of_not_lt h1)) ?_⟩
          simp only [h2, h0, if_false]
          rw [← List.append_assoc]
          exact runs_recvN_take (Nat.le_of_not_lt h3)

/-- A frame that is not corrupted was there in full. -/
theorem takeFrame_full {w : SessionEncWrapper} {rest : Bytes} (ht : takeFrame inp = some (w, rest))
    (hc : w.corrupted = false) : 16 + leDec (inp.take 8) ≤ inp.length ∧ leDec (inp.take 8) ≤ stream_chunk_size := by
  unfold takeFrame at ht
  split at ht
  · cases ht
  · split at ht
    · simp only [Option.some.injEq, Prod.mk.injEq] at ht
      rw [← ht.1] at hc
      cases hc
    · rename_i hbig
      split at ht
      · cases ht
      · rename_i hnonce
        split at ht
        · cases ht
        · rename_i hdata
          simp only [List.length_drop, AEAD_NPUBBYTES] at hnonce hdata
          omega

theorem takeBlob_full {cap : Nat} {b rest : Bytes} (ht : takeBlob cap inp = some (b, rest)) :
    8 + leDec (inp.take 8) ≤ inp.length := by
  unfold takeBlob at ht
  split at ht
  · cases ht
  · split at ht
    · cases ht
    · split at ht
      · cases ht
      · rename_i hdata
        rw [List.length_drop] at hdata
        omega

/-! ### Streams that may end early -/

/-- The length field at the front of a stream, as far as it goes. -/
theorem take_eight_of_begins {k : Nat} {t : Bytes} (hp : inp <+: u64Enc k ++ t) (h8 : 8 ≤ inp.length) :
    inp.take 8 = u64Enc k := by
  obtain ⟨s, hs⟩ := hp
  have ht : (inp ++ s).take 8 = inp.take 8 := List.take_append_of_le_length h8
  rw [← ht, hs, List.take_left' (u64Enc_length k)]

/-- A frame at the front of a stream that may end inside it: the wrapper is
corrupted, or it was all there. -/
theorem ofSock_cut {A : Aead} {r : ρ} {tx n m t : Bytes} (hn : n.length = 8)
    (h64 : m.length + AEAD_ABYTES < 2 ^ 64) (hp : inp <+: frame A tx n m ++ t) {w : SessionEncWrapper}
    {w1 : World σ ρ} (hx : Runs (ofSock r) ⟨st, inp, e, h, []⟩ w w1) :
    w.corrupted = true ∨ m.length ≤ FILE_ENCRYPTED_CHUNK_SIZE ∧ ∃ t', inp = frame A tx n m ++ t' ∧ t' <+: t ∧
      w = received A tx n m ∧ w1 = ⟨st, t', e, h ++ frameRcvs A r tx n m, []⟩ := by
  by_cases hc : w.corrupted = true
  · exact .inl hc
  obtain ⟨rest, evs, -, ht⟩ := ofSock_cases hx
  rcases ht with ht | ⟨-, -, hcor, -⟩
  · obtain ⟨hlen, hle⟩ := takeFrame_full ht (by simpa using hc)
    have hct : leDec (inp.take 8) = (A.encrypt tx n m).length := by
      have hp' : inp <+: u64Enc (A.encrypt tx n m).length ++ (n ++ A.encrypt tx n m ++ t) := by
        simpa [frame] using hp
      rw [take_eight_of_begins hp' (by omega)]
      exact leDec_u64Enc (by rw [A.encrypt_length]; exact h64)
    have hfl : (frame A tx n m).length ≤ inp.length := by
      simp only [frame, List.length_append, u64Enc_length, hn]
      omega
    obtain ⟨t', rfl⟩ := List.prefix_of_prefix_length_le (List.prefix_append _ _) hp hfl
    have hm : m.length ≤ FILE_ENCRYPTED_CHUNK_SIZE := by
      rw [hct, A.encrypt_length] at hle
      simp only [stream_chunk_size, FILE_ENCRYPTED_CHUNK_SIZE, AEAD_ABYTES] at hle ⊢
      omega
    obtain ⟨rfl, rfl⟩ := hx.unique (runs_ofSock_frame st e h A r tx hn hm t')
    exact .inr ⟨hm, t', rfl, (List.prefix_append_right_inj _).mp hp, rfl, rfl⟩
  · exact .inl hcor

/-- The same for a blob. -/
theorem recvRawBlob_cut {r : ρ} {cap : Nat} {b t : Bytes} (hb : b.length ≤ cap) (h64 : b.length < 2 ^ 64)
    (hp : inp <+: blob b ++ t) {o : Option Bytes} {w1 : World σ ρ}
    (hx : Runs (recvRawBlob r cap) ⟨st, inp, e, h, []⟩ o w1) :
    o = none ∨ ∃ t', inp = blob b ++ t' ∧ t' <+: t ∧ o = some b ∧ w1 = ⟨st, t', e, h ++ blobRcvs r b, []⟩ := by
  obtain ⟨rest, evs, -, ht⟩ := recvRawBlob_cases hx
  rcases ht with ⟨rfl, -⟩ | ⟨b', -, ht⟩
  · exact .inl rfl
  · have hlen := takeBlob_full ht
    have hbl : leDec (inp.take 8) = b.length := by
      have hp' : inp <+: u64Enc b.length ++ (b ++ t) := by simpa [blob] using hp
      rw [take_eight_of_begins hp' (by omega)]
      exact leDec_u64Enc h64
    have hfl : (blob b).length ≤ inp.length := by
      simp only [blob, List.length_append, u64Enc_length]
      omega
    obtain ⟨t', rfl⟩ := List.prefix_of_prefix_length_le (List.prefix_append _ _) hp hfl
    obtain ⟨rfl, rfl⟩ := hx.unique (runs_recvRawBlob st e h r hb h64 t')
    exact .inr ⟨t', rfl, (List.prefix_append_right_inj _).mp hp, rfl, rfl⟩

end

/-- The length of a ciphertext, as `unwrap` computes with it. -/
theorem sub64_encrypt (A : Aead) (k n : Bytes) {m : Bytes}
    (hm : m.length ≤ FILE_ENCRYPTED_CHUNK_SIZE) :
    sub64 (A.encrypt k n m).length AEAD_ABYTES = m.length ∧ ¬ stream_chunk_size < m.length := by
  have hle : AEAD_ABYTES ≤ (A.encrypt k n m).length := by rw [A.encrypt_length]; omega
  have h64 : (A.encrypt k n m).length < 2 ^ 64 := by
    rw [A.encrypt_length]
    exact Nat.lt_of_le_of_lt (Nat.add_le_add_right hm _) (by decide)
  constructor
  · rw [sub64_of_le hle h64, A.encrypt_length]; omega
  · simp only [stream_chunk_size, FILE_ENCRYPTED_CHUNK_SIZE] at hm ⊢; omega

theorem unwrap_corrupted (A : Aead) {w : SessionEncWrapper} (rx : Bytes) (hc : w.corrupted = true)
    (cap : Nat) (buf : Bytes) (len : Nat) : (unwrap A w rx cap buf len).ret ≠ 0 := by
  unfold unwrap
  simp only [hc, if_true]
  split <;> simp

/-- Unwrapping a frame under the key it was written with. -/
theorem unwrap_received (A : Aead) (k n : Bytes) {m : Bytes}
    (hm : m.length ≤ FILE_ENCRYPTED_CHUNK_SIZE) {cap : Nat} (hc : m.length ≤ cap) (buf : Bytes)
    (len : Nat) :
    unwrap A (received A k n m) k cap buf len = ⟨0, received A k n m, blit m buf, m.length⟩ := by
  obtain ⟨hs, h1⟩ := sub64_encrypt A k n hm
  simp [unwrap, received, hs, h1, Nat.not_lt.mpr hc, aeadDecrypt, A.decrypt_encrypt]

/-- A frame whose message does not fit the caller's capacity. -/
theorem unwrap_received_too_long (A : Aead) (k n : Bytes) {m : Bytes}
    (hm : m.length ≤ FILE_ENCRYPTED_CHUNK_SIZE) {cap : Nat} (hc : cap < m.length) (buf : Bytes)
    (len : Nat) :
    unwrap A (received A k n m) k cap buf len =
      ⟨2, { received A k n m with corrupted := true }, buf, len⟩ := by
  obtain ⟨hs, h1⟩ := sub64_encrypt A k n hm
  simp [unwrap, received, hs, h1, hc]

/-- A 32-bit value read into an `int`. -/
theorem unwrap_received_i32 (A : Aead) (k n : Bytes) {v : Int} (lo : -2 ^ 31 ≤ v) (hi : v < 2 ^ 31)
    {buf : Bytes} (hb : buf.length = 4) (len : Nat) :
    (unwrap A (received A k n (i32Enc v)) k 4 buf len).ret = 0 ∧
      i32Dec (unwrap A (received A k n (i32Enc v)) k 4 buf len).decrypted_data = v := by
  rw [unwrap_received A k n (by rw [i32Enc_length]; decide) (by simp), blit_eq_of_length (by simp [hb])]
  exact ⟨rfl, i32Dec_i32Enc lo hi⟩

end Mefsc.L1
