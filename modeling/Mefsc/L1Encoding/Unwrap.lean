import Mefsc.L1Encoding.SessionEnc

/-!
# The ways `unwrap` ends

A frame that was read in full has at most `stream_chunk_size` bytes of
ciphertext, and `unwrap` ends in one of four ways (`Unwraps`): the ciphertext is
shorter than a tag, it is too long for the caller, it does not verify, or its
message is there. Only the two in the middle mark the wrapper as corrupted.
-/
namespace Mefsc.L1

open SessionEncWrapper

/-- A frame that was read in full. -/
structure Taken (w : SessionEncWrapper) : Prop where
  reader : w.enc_wrap_type = .reader
  whole : w.corrupted = false
  length : w.session_encrypted_data.length = w.session_encrypted_data_length
  bound : w.session_encrypted_data_length ≤ stream_chunk_size

theorem takeFrame_taken {inp rest : Bytes} {w : SessionEncWrapper} (ht : takeFrame inp = some (w, rest))
    (hc : w.corrupted = false) : Taken w := by
  unfold takeFrame at ht
  split at ht
  · cases ht
  split at ht
  · obtain ⟨rfl, -⟩ : _ = w ∧ _ = rest := by simpa using ht
    cases hc
  rename_i hbig
  split at ht
  · cases ht
  split at ht
  · cases ht
  · rename_i hdata
    simp only [Option.some.injEq, Prod.mk.injEq] at ht
    obtain ⟨rfl, -⟩ := ht
    refine ⟨rfl, rfl, ?_, Nat.le_of_not_lt hbig⟩
    exact List.length_take_of_le (Nat.le_of_not_lt hdata)

/-- A frame at the front of a stream. -/
theorem takeFrame_frame (A : Aead) (tx : Bytes) {n m : Bytes} (hn : n.length = 8)
    (hm : m.length ≤ FILE_ENCRYPTED_CHUNK_SIZE) (rest : Bytes) :
    takeFrame (frame A tx n m ++ rest) = some (received A tx n m, rest) := by
  have hr := runs_ofSock_frame () false [] A () tx hn hm rest
  obtain ⟨rest', evs, hw, ht | ⟨-, he, -⟩⟩ := ofSock_cases hr
  · obtain rfl : rest = rest' := congrArg World.inp hw
    exact ht
  · cases he

section
variable (A : Aead) (rx : Bytes)

/-- The message the frame verifies to. -/
def Verified (w : SessionEncWrapper) (m : Bytes) : Prop :=
  A.decrypt rx w.nonce w.session_encrypted_data = some m

/-- Of a length that is looked at, and does not verify. -/
structure Forged (cap : Nat) (w : SessionEncWrapper) : Prop where
  tag : AEAD_ABYTES ≤ w.session_encrypted_data_length
  fits : w.session_encrypted_data_length ≤ cap + AEAD_ABYTES
  rejected : A.decrypt rx w.nonce w.session_encrypted_data = none

/-- Shorter than a tag. -/
def Stub (w : SessionEncWrapper) : Prop := w.session_encrypted_data_length < AEAD_ABYTES

inductive Unwraps (cap : Nat) (buf : Bytes) (len : Nat) (w : SessionEncWrapper) : Unwrapped → Prop where
  | stub (h : Stub w) : Unwraps cap buf len w ⟨3, w, buf, len⟩
  | long (h : cap + AEAD_ABYTES < w.session_encrypted_data_length) :
    Unwraps cap buf len w ⟨2, { w with corrupted := true }, buf, len⟩
  | forged (h : Forged A rx cap w) : Unwraps cap buf len w
      ⟨1, { w with corrupted := true }, blit (List.replicate (w.session_encrypted_data.length - AEAD_ABYTES) 0) buf, 0⟩
  | ok (m : Bytes) (h : Verified A rx w m) (hm : m.length ≤ cap) :
    Unwraps cap buf len w ⟨0, w, blit m buf, m.length⟩

variable {A rx} {w : SessionEncWrapper} {m : Bytes}

theorem Taken.unwraps (hw : Taken w) (cap : Nat) (buf : Bytes) (len : Nat) :
    Unwraps A rx cap buf len w (unwrap A w rx cap buf len) := by
  have hb := hw.bound
  unfold unwrap
  rw [if_neg (by simp [hw.reader]), if_neg (by simp [hw.whole])]
  by_cases hs : w.session_encrypted_data_length < AEAD_ABYTES
  · rw [sub64_of_lt hs (by decide), if_pos ?_]
    · exact .stub hs
    · simp only [stream_chunk_size, CHUNK_SIZE, STREAM_ABYTES, AEAD_ABYTES]
      omega
  have hs := Nat.le_of_not_lt hs
  rw [sub64_of_le hs (Nat.lt_of_le_of_lt hw.bound (by decide)), if_neg ?_]
  · by_cases hl : cap + AEAD_ABYTES < w.session_encrypted_data_length
    · rw [if_pos (by omega)]
      exact .long hl
    · rw [if_neg (by omega)]
      unfold aeadDecrypt
      cases hd : A.decrypt rx w.nonce w.session_encrypted_data with
      | none => exact .forged ⟨hs, Nat.le_of_not_lt hl, hd⟩
      | some m =>
        have hlen := A.decrypt_length _ _ _ _ hd
        rw [hw.length] at hlen
        exact .ok m hd (by omega)
  · omega

theorem Verified.length (hw : Taken w) (hv : Verified A rx w m) :
    w.session_encrypted_data_length = m.length + AEAD_ABYTES := by
  rw [← hw.length]
  exact A.decrypt_length _ _ _ _ hv

theorem Verified.unique {m' : Bytes} (h : Verified A rx w m) (h' : Verified A rx w m') : m = m' :=
  Option.some.inj (h.symm.trans h')

theorem verified_received (A : Aead) (k n m : Bytes) : Verified A k (received A k n m) m := A.decrypt_encrypt k n m

variable {cap len : Nat} {buf : Bytes}

theorem unwrap_verified (hw : Taken w) (hv : Verified A rx w m) (hm : m.length ≤ cap) :
    unwrap A w rx cap buf len = ⟨0, w, blit m buf, m.length⟩ := by
  have hlen := hv.length hw
  generalize hu : unwrap A w rx cap buf len = u
  have h : Unwraps A rx cap buf len w (unwrap A w rx cap buf len) := hw.unwraps cap buf len
  rw [hu] at h
  cases h with
  | stub h =>
    unfold Stub at h
    omega
  | long h => omega
  | forged h => exact absurd (h.rejected.symm.trans hv) (by simp)
  | ok m' h' => rw [hv.unique h']

theorem unwrap_forged (hw : Taken w) (hf : Forged A rx cap w) :
    unwrap A w rx cap buf len = ⟨1, { w with corrupted := true },
      blit (List.replicate (w.session_encrypted_data.length - AEAD_ABYTES) 0) buf, 0⟩ := by
  have htag := hf.tag
  have hfits := hf.fits
  generalize hu : unwrap A w rx cap buf len = u
  have h : Unwraps A rx cap buf len w (unwrap A w rx cap buf len) := hw.unwraps cap buf len
  rw [hu] at h
  cases h with
  | stub h =>
    unfold Stub at h
    omega
  | long h => omega
  | forged h => rfl
  | ok m' h' => exact absurd (hf.rejected.symm.trans h') (by simp)

theorem unwrap_stub (hw : Taken w) (hs : Stub w) : unwrap A w rx cap buf len = ⟨3, w, buf, len⟩ := by
  unfold Stub at hs
  generalize hu : unwrap A w rx cap buf len = u
  have h : Unwraps A rx cap buf len w (unwrap A w rx cap buf len) := hw.unwraps cap buf len
  rw [hu] at h
  cases h with
  | stub h => rfl
  | long h => omega
  | forged h =>
    have htag := h.tag
    omega
  | ok m' h' =>
    have hlen := h'.length hw
    omega

end

end Mefsc.L1
