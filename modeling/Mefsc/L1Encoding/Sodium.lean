import Mefsc.Core.Bytes

/-!
# The libsodium interface and the constants of the wire format

`include/common/constants.h` and the libsodium calls the code makes. libsodium
is not part of the repository, so its primitives are parameters:

* `Aead`: chacha20poly1305 of the session layer;
* `SecretStream`: xchacha20poly1305 of the file layer. Push and pull states are
  the same struct and advance in step; `SecretStream.Correct` says that pull
  undoes push when the chunks are presented whole and in order;
* `Sodium` also has `crypto_pwhash`, `crypto_pwhash_str_verify` and
  `crypto_kx`.

`fit n b` is an `n`-byte field filled from `b`.
-/
namespace Mefsc.L1

/-! ## Constants -/

def AEAD_ABYTES : Nat := 16
def AEAD_NPUBBYTES : Nat := 8
def STREAM_ABYTES : Nat := 17
def STREAM_HEADERBYTES : Nat := 24
def PWHASH_SALTBYTES : Nat := 16
def BOX_SEEDBYTES : Nat := 32
def KX_PUBLICKEYBYTES : Nat := 32
def TAG_FINAL : UInt8 := 3

/- mirrors include/common/constants.h:8-27 -/
def INVALID_READ_INTENT : Int := -45
def NO_ACTION : Int := 99
def NEW_ACTION : Int := 88
def END_CHUNK : Int := 77
def MEAT_CHUNK : Int := 66
def CHUNK_SIZE : Nat := 65536
def FILE_ENCRYPTED_CHUNK_SIZE : Nat := CHUNK_SIZE + STREAM_ABYTES
def stream_chunk_size : Nat := CHUNK_SIZE + STREAM_ABYTES + AEAD_ABYTES
def MAX_FILE_NAME_LENGTH : Nat := 255
def PRE_EXT_FILE_NAME_LEN : Nat := 250
def LIST_FILES : Int := 3
def DELETE_FILE : Int := 4

/- mirrors src/server/server.cpp:19-24 and src/client/client.cpp:20-25 -/
def ACK_SUC : Int := 0
def ACK_FAIL : Int := -1
def CONFUSION : Int := -420
def READ_FROM_FILESYSTEM : Int := 1
def WRITE_TO_FILESYSTEM : Int := 2

/-- `".enc"`, mirrors src/server/read_write_handlers.cpp:11 -/
def ext : Bytes := [46, 101, 110, 99]

/-- `"MEF_S/"`, mirrors src/server/read_write_handlers.cpp:14 -/
def base_dir : Bytes := [77, 69, 70, 95, 83, 47]

theorem chunk_size_pos : 0 < CHUNK_SIZE := by decide

theorem file_chunk_size_pos : 0 < FILE_ENCRYPTED_CHUNK_SIZE := by decide

/-- An `n`-byte field filled from `b`, zero beyond it. -/
def fit (n : Nat) (b : Bytes) : Bytes := (b ++ List.replicate n 0).take n

@[simp] theorem fit_length (n : Nat) (b : Bytes) : (fit n b).length = n := by
  simp [fit]

theorem fit_of_length {n : Nat} {b : Bytes} (h : b.length = n) : fit n b = b := by
  simp [fit, ← h]

/-! ## Primitives -/

structure Aead where
  /-- key, nonce, message -/
  encrypt : Bytes → Bytes → Bytes → Bytes
  /-- key, nonce, ciphertext; `none` when verification fails -/
  decrypt : Bytes → Bytes → Bytes → Option Bytes
  decrypt_encrypt : ∀ k n m, decrypt k n (encrypt k n m) = some m
  encrypt_length : ∀ k n m, (encrypt k n m).length = m.length + AEAD_ABYTES
  decrypt_length : ∀ k n c m, decrypt k n c = some m → c.length = m.length + AEAD_ABYTES

structure SecretStream where
  State : Type
  /-- randomness, key ↦ state, header -/
  initPush : Bytes → Bytes → State × Bytes
  push : State → Bytes → UInt8 → State × Bytes
  /-- header, key -/
  initPull : Bytes → Bytes → Option State
  pull : State → Bytes → Option (State × Bytes × UInt8)
  header_length : ∀ r k, (initPush r k).2.length = STREAM_HEADERBYTES
  push_length : ∀ s m t, (push s m t).2.length = m.length + STREAM_ABYTES
  pull_length : ∀ s c s' m t, pull s c = some (s', m, t) → c.length = m.length + STREAM_ABYTES

/-- Pull undoes push, in order. -/
structure SecretStream.Correct (S : SecretStream) : Prop where
  init : ∀ r k, S.initPull (S.initPush r k).2 k = some (S.initPush r k).1
  pull_push : ∀ s m t, S.pull s (S.push s m t).2 = some ((S.push s m t).1, m, t)

structure Sodium where
  aead : Aead
  ss : SecretStream
  /-- `crypto_pwhash` without a memory failure: password, salt ↦ key -/
  pwhash : Bytes → Bytes → Bytes
  /-- `crypto_pwhash_str_verify`: hash, password -/
  pwhashVerify : Bytes → Bytes → Bool
  /-- `crypto_kx_server_session_keys`: the peer's public key ↦ (rx, tx) -/
  kxServer : Bytes → Option (Bytes × Bytes)

/-! ## Pushing and pulling a list of chunks -/

/-- Push `m` blocks, the last one with `TAG_FINAL`. -/
def pushAll (S : SecretStream) (s : S.State) : List Bytes → List Bytes
  | [] => []
  | [m] => [(S.push s m TAG_FINAL).2]
  | m :: m' :: ms => (S.push s m 0).2 :: pushAll S (S.push s m 0).1 (m' :: ms)

/-- Pull the blocks one after another; `none` at the first failure. -/
def pullAll (S : SecretStream) (s : S.State) : List Bytes → Option (List (Bytes × UInt8))
  | [] => some []
  | c :: cs =>
    match S.pull s c with
    | none => none
    | some (s', m, t) => (pullAll S s' cs).map ((m, t) :: ·)

theorem pullAll_cons {S : SecretStream} {s : S.State} {c : Bytes} {cs : List Bytes}
    {ts : List (Bytes × UInt8)} (h : pullAll S s (c :: cs) = some ts) :
    ∃ s' m t ts', S.pull s c = some (s', m, t) ∧ pullAll S s' cs = some ts' ∧ ts = (m, t) :: ts' := by
  unfold pullAll at h
  cases hp : S.pull s c with
  | none => simp [hp] at h
  | some x =>
    obtain ⟨s', m, t⟩ := x
    simp only [hp, Option.map_eq_some_iff] at h
    obtain ⟨ts', h', rfl⟩ := h
    exact ⟨s', m, t, ts', rfl, h', rfl⟩

theorem pushAll_lengths (S : SecretStream) (s : S.State) (ms : List Bytes) :
    (pushAll S s ms).map List.length = ms.map fun m => m.length + STREAM_ABYTES := by
  induction ms generalizing s with
  | nil => rfl
  | cons m ms ih =>
    cases ms with
    | nil => simp [pushAll, S.push_length]
    | cons m' ms => simp only [pushAll, List.map_cons, S.push_length, ih]

/-! ## A stand-in

Small functions with the interfaces above, to run the model on: the tag is made
of the key and the nonce, and decryption compares it. -/

/-- The message and its tag. -/
def tagged (tag m : Bytes) : Bytes := m ++ fit 16 tag

/-- The message of `c` when its tag is `tag`. -/
def untagged (tag c : Bytes) : Option Bytes :=
  if 16 ≤ c.length ∧ c.drop (c.length - 16) = fit 16 tag then some (c.take (c.length - 16)) else none

theorem untagged_tagged (tag m : Bytes) : untagged tag (tagged tag m) = some m := by
  simp [untagged, tagged]

theorem untagged_length {tag c m : Bytes} (h : untagged tag c = some m) : c.length = m.length + 16 := by
  unfold untagged at h
  split at h
  · rename_i hc
    obtain rfl : _ = m := by simpa using h
    simp only [List.length_take]
    omega
  · cases h

def plainAead : Aead where
  encrypt k n m := tagged (n ++ k) m
  decrypt k n c := untagged (n ++ k) c
  decrypt_encrypt k n m := untagged_tagged _ m
  encrypt_length k n m := by simp [tagged, AEAD_ABYTES]
  decrypt_length k n c m h := untagged_length h

def plainStream : SecretStream where
  State := Bytes
  initPush r k := (k, fit STREAM_HEADERBYTES r)
  push s m t := (s, t :: tagged s m)
  initPull _ k := some k
  pull s c :=
    match c with
    | [] => none
    | t :: c => (untagged s c).map fun m => (s, m, t)
  header_length r k := fit_length _ _
  push_length s m t := by simp [tagged, STREAM_ABYTES]
  pull_length s c s' m t h := by
    cases c with
    | nil => cases h
    | cons t' c =>
      obtain ⟨m', hm, he⟩ := Option.map_eq_some_iff.mp h
      simp only [Prod.mk.injEq] at he
      obtain ⟨-, rfl, -⟩ := he
      simp [untagged_length hm, STREAM_ABYTES]

theorem plainStream_correct : plainStream.Correct where
  init _ _ := rfl
  pull_push s m t := congrArg (Option.map fun m => (s, m, t)) (untagged_tagged s m)

def plainSodium : Sodium where
  aead := plainAead
  ss := plainStream
  pwhash p s := p ++ s
  pwhashVerify hash p := hash == p
  kxServer pk := some (pk, pk)

end Mefsc.L1
