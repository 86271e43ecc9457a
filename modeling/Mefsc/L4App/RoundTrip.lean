import Mefsc.L3Protocol.ClientRuns

/-!
# A file that is uploaded and downloaded again

The upload cuts the plaintext at `CHUNK_SIZE`; the server stores the ciphertext
chunks back to back and later cuts them at `FILE_ENCRYPTED_CHUNK_SIZE`. Every
chunk grows by `STREAM_ABYTES` and the last one is always short, so the second
cutting finds the first (`sentChunks_stored`), and pulling undoes pushing.

`upload_download`: the four handlers in a row give the file back. The two
transfers may belong to different sessions.
-/
namespace Mefsc.L4

open L1 L3
open Proc hiding ret recv send act iter bind

/-- The two ends of a session: the same library, matching keys. -/
structure Linked (C : ClientEnv) (E : ServerEnv) : Prop where
  na : E.na = C.na
  up : E.server_rx = C.client_tx
  down : E.server_tx = C.client_rx

/-! ## Stored files -/

/-- What the server stores for an upload of `c` with push randomness `r`. -/
def storedFile (S : SecretStream) (r key salt c : Bytes) : Bytes :=
  (S.initPush r key).2 ++ salt ++ (pushAll S (S.initPush r key).1 (cut CHUNK_SIZE c)).flatten

theorem pushAll_blocky (S : SecretStream) (s : S.State) (c : Bytes) :
    Blocky FILE_ENCRYPTED_CHUNK_SIZE (pushAll S s (cut CHUNK_SIZE c)) :=
  (blocky_cut chunk_size_pos c).grow (pushAll_lengths S s _)

/-- The server finds the uploaded chunks again. -/
theorem sentChunks_stored (S : SecretStream) (r key c : Bytes) {salt : Bytes}
    (hs : salt.length = PWHASH_SALTBYTES) :
    ServerEnv.sentChunks (storedFile S r key salt c) =
      pushAll S (S.initPush r key).1 (cut CHUNK_SIZE c) := by
  have hl : ((S.initPush r key).2 ++ salt).length = STREAM_HEADERBYTES + PWHASH_SALTBYTES := by
    rw [List.length_append, S.header_length, hs]
  rw [ServerEnv.sentChunks, storedFile, List.drop_left' hl]
  exact cut_flatten_of_blocky file_chunk_size_pos (pushAll_blocky S _ c)

theorem sentHeader_stored (S : SecretStream) (r key salt c mem : Bytes) :
    ServerEnv.sentHeader (storedFile S r key salt c) mem = (S.initPush r key).2 := by
  have hl := S.header_length r key
  rw [ServerEnv.sentHeader, storedFile, List.append_assoc, List.take_left' hl]
  exact blit_eq_of_length (by simp [hl])

theorem sentSalt_stored (S : SecretStream) (r key c mem : Bytes) {salt : Bytes}
    (hs : salt.length = PWHASH_SALTBYTES) :
    ServerEnv.sentSalt (storedFile S r key salt c) mem = salt := by
  have hl := S.header_length r key
  rw [ServerEnv.sentSalt, storedFile, List.append_assoc, List.drop_left' hl, List.take_left' hs]
  exact blit_eq_of_length (by simp [hs])

/-- Pulling what was pushed publishes every block. -/
theorem pulled_pushAll {S : SecretStream} (hS : S.Correct) (s : S.State) (ms : List Bytes) :
    (ClientEnv.pulled S s (pushAll S s ms)).1 = 0 ∧
      (ClientEnv.pulled S s (pushAll S s ms)).2.1.map Prod.snd = ms := by
  induction ms generalizing s with
  | nil => exact ⟨rfl, rfl⟩
  | cons m ms ih =>
    cases ms with
    | nil => simp [pushAll, ClientEnv.pulled, hS.pull_push]
    | cons m' ms => simpa [pushAll, ClientEnv.pulled, hS.pull_push] using ih (S.push s m 0).1

/-! ## The four handlers -/

/-- The client uploads, the server stores. -/
theorem upload_stores {C : ClientEnv} {E : ServerEnv} (hl : Linked C E) (act : Nat) (SA : SenderAgent)
    {name c : Bytes} (hnul : (0 : UInt8) ∉ name) (hlen : name.length ≤ PRE_EXT_FILE_NAME_LEN)
    {cst : ClientState} (ho : cst.fs.openRead C.cwd name = some ⟨c, false⟩) (sst : FsOperator) :
    ∃ r key salt cst' sst' evs evs', salt.length = PWHASH_SALTBYTES ∧
      (C.host.oom cst.hashes = false → key = C.na.pwhash C.password salt) ∧
      Runs (C.encryptAndSendToServer act SA name) ⟨cst, [], false, [], []⟩ 0
        ⟨cst', [], false, evs, []⟩ ∧
      Runs (E.wtfsHandlerServer act) ⟨sst, sent evs, false, [], []⟩ 0 ⟨sst', [], false, evs', []⟩ ∧
      sst'.fs = sst.fs.stored E.cwd (E.user_dir ++ (name ++ ext)) (storedFile C.na.ss r key salt c) := by
  obtain ⟨cst', nonce, r, key, salt, -, hs, hk, hup⟩ :=
    ClientEnv.runs_upload (C := C) cst [] false [] act SA ho
  have hb := pushAll_blocky C.na.ss (C.na.ss.initPush r key).1 c
  obtain ⟨sst', hfs, -, hdown⟩ := ServerEnv.runs_wtfsHandlerServer (E := E) sst [] false [] act SA.nonce
    nonce hlen (C.na.ss.header_length r key) hs hb.ne_nil hb.le
  rw [hl.na, hl.up] at hdown
  rw [cstr_of_noNul hnul] at hfs
  exact ⟨r, key, salt, cst', sst', _, _, hs, hk, hup, by simpa using hdown, hfs⟩

theorem sentChunks_blocky (B : Bytes) :
    Blocky FILE_ENCRYPTED_CHUNK_SIZE (ServerEnv.sentChunks B) :=
  blocky_cut file_chunk_size_pos _

theorem sentHeader_length (c mem : Bytes) :
    (ServerEnv.sentHeader c mem).length = STREAM_HEADERBYTES := by
  simp [ServerEnv.sentHeader, blit]

theorem sentSalt_length (c mem : Bytes) :
    (ServerEnv.sentSalt c mem).length = PWHASH_SALTBYTES := by
  simp [ServerEnv.sentSalt, blit]

/-- The server sends a stored file. -/
theorem download_sends {E : ServerEnv} (act : Nat) {n name : Bytes} (hn : n.length = 8)
    (hlen : (name ++ [0]).length ≤ PRE_EXT_FILE_NAME_LEN) {sst : FsOperator} {B : Bytes}
    (ho : sst.fs.openRead E.cwd (E.user_dir ++ cstr name) = some ⟨B, false⟩) :
    ∃ sst' evs nonce m1 m2,
      Runs (E.rffsHandlerServer act)
        ⟨sst, frame E.na.aead E.server_rx n (name ++ [0]), false, [], []⟩ 0
        ⟨sst', [], false, evs, []⟩ ∧
      sst'.fs = sst.fs ∧
      sent evs = sent (fileEvs E.na.aead E.server_tx act nonce (ServerEnv.sentHeader B m1)
        (ServerEnv.sentSalt B m2) (ServerEnv.sentChunks B)) := by
  obtain ⟨sst', nonce, m1, m2, hfs, -, hr⟩ :=
    ServerEnv.runs_rffsHandlerServer (E := E) sst [] false [] act hn hlen ho
  exact ⟨sst', _, nonce, m1, m2, by simpa using hr, hfs, by simp⟩

/-- The client decrypts what it is sent. -/
theorem download_reads {C : ClientEnv} (act : Nat) (nonce m1 m2 B : Bytes) {cst : ClientState}
    (hoom : C.host.oom cst.hashes = false) {state : C.na.ss.State}
    (hi : C.na.ss.initPull (ServerEnv.sentHeader B m1)
      (C.na.pwhash C.password (ServerEnv.sentSalt B m2)) = some state) :
    ∃ inp' evs, Runs (C.decryptAndReadFromServer act)
      ⟨cst, sent (fileEvs C.na.aead C.client_rx act nonce (ServerEnv.sentHeader B m1)
        (ServerEnv.sentSalt B m2) (ServerEnv.sentChunks B)), false, [], []⟩
      (ClientEnv.pulled C.na.ss state (ServerEnv.sentChunks B)).1
      ⟨ClientEnv.downloaded (ClientEnv.pulled C.na.ss state (ServerEnv.sentChunks B)).2.1 cst, inp',
        false, evs, []⟩ := by
  obtain ⟨evs, inp', hr, -⟩ := ClientEnv.runs_decryptAndRead (C := C) cst [] false [] act nonce
    (sentHeader_length B m1) (sentSalt_length B m2) (sentChunks_blocky B).ne_nil
    (sentChunks_blocky B).le hoom hi
  exact ⟨inp', evs, by simpa using hr⟩

theorem downloaded_lookup {cst : ClientState} {p : Path} {old : Bytes} (hf : cst.file = some p)
    (hp : cst.fs.lookup p = some (.file old)) (ps : List (Bytes × Bytes)) :
    (ClientEnv.downloaded ps cst).fs.lookup p =
      some (.file (old ++ (ps.map Prod.snd).flatten)) := by
  simp [ClientEnv.downloaded, ClientEnv.written, hf, FS.append, hp]

/-- A stored upload, sent to a client with the password it was made with. -/
theorem download_of_stored {C : ClientEnv} {E : ServerEnv} (hl : Linked C E) (hS : C.na.ss.Correct)
    (act : Nat) {n name : Bytes} (hn : n.length = 8)
    (hlen : (name ++ [0]).length ≤ PRE_EXT_FILE_NAME_LEN) {r salt c : Bytes}
    (hs : salt.length = PWHASH_SALTBYTES) {sst : FsOperator}
    (ho : sst.fs.openRead E.cwd (E.user_dir ++ cstr name) =
      some ⟨storedFile C.na.ss r (C.na.pwhash C.password salt) salt c, false⟩) :
    ∃ sst' down,
      Runs (E.rffsHandlerServer act)
        ⟨sst, frame E.na.aead E.server_rx n (name ++ [0]), false, [], []⟩ 0
        ⟨sst', [], false, down, []⟩ ∧
      ∀ (cst : ClientState) (p : Path), cst.file = some p → cst.fs.lookup p = some (.file []) →
        C.host.oom cst.hashes = false → ∃ cst' inp' evs,
          Runs (C.decryptAndReadFromServer act) ⟨cst, sent down, false, [], []⟩ 0
            ⟨cst', inp', false, evs, []⟩ ∧
          cst'.fs.lookup p = some (.file c) := by
  obtain ⟨sst', down, nonce, m1, m2, hdown, -, hsent⟩ := download_sends (E := E) act hn hlen ho
  refine ⟨sst', down, hdown, fun cst p hf hp hoom => ?_⟩
  have hi : C.na.ss.initPull
      (ServerEnv.sentHeader (storedFile C.na.ss r (C.na.pwhash C.password salt) salt c) m1)
      (C.na.pwhash C.password
        (ServerEnv.sentSalt (storedFile C.na.ss r (C.na.pwhash C.password salt) salt c) m2)) =
      some (C.na.ss.initPush r (C.na.pwhash C.password salt)).1 := by
    rw [sentHeader_stored, sentSalt_stored _ _ _ _ _ hs]
    exact hS.init r _
  obtain ⟨inp', evs, hread⟩ := download_reads act nonce m1 m2 _ hoom hi
  rw [hl.na, hl.down] at hsent
  obtain ⟨h0, hms⟩ := pulled_pushAll hS (C.na.ss.initPush r (C.na.pwhash C.password salt)).1
    (cut CHUNK_SIZE c)
  rw [← sentChunks_stored _ _ _ _ hs] at h0 hms
  rw [← hsent, h0] at hread
  refine ⟨_, inp', evs, hread, ?_⟩
  rw [downloaded_lookup hf hp, hms, cut_flatten chunk_size_pos, List.nil_append]

/-- Upload, store, send, decrypt: the file comes back, for every content. The
server's copy is sent by any later session of that user that finds it as the
upload left it. -/
theorem upload_download {C C' : ClientEnv} {E E' : ServerEnv} (hl : Linked C E) (hl' : Linked C' E')
    (hna : C'.na = C.na) (hpw : C'.password = C.password) (hcwd : E'.cwd = E.cwd)
    (huser : E'.username = E.username) (hS : C.na.ss.Correct) {name c : Bytes}
    (hnul : (0 : UInt8) ∉ name) (hlen : (name ++ ext ++ [0]).length ≤ PRE_EXT_FILE_NAME_LEN)
    {cst : ClientState} (ho : cst.fs.openRead C.cwd name = some ⟨c, false⟩)
    (hoom : C.host.oom cst.hashes = false) (act : Nat) (SA : SenderAgent) {sst : FsOperator}
    (hopen : (sst.fs.openTrunc E.cwd (E.user_dir ++ (name ++ ext))).isSome) :
    ∃ cst1 sst1 up got,
      Runs (C.encryptAndSendToServer act SA name) ⟨cst, [], false, [], []⟩ 0
        ⟨cst1, [], false, up, []⟩ ∧
      Runs (E.wtfsHandlerServer act) ⟨sst, sent up, false, [], []⟩ 0 ⟨sst1, [], false, got, []⟩ ∧
      ∀ sst2 : FsOperator, sst2.fs.openRead E.cwd (E.user_dir ++ (name ++ ext)) =
          sst1.fs.openRead E.cwd (E.user_dir ++ (name ++ ext)) →
        ∀ (act' : Nat) (n : Bytes), n.length = 8 → ∃ sst3 down,
          Runs (E'.rffsHandlerServer act')
            ⟨sst2, frame E'.na.aead E'.server_rx n (name ++ ext ++ [0]), false, [], []⟩ 0
            ⟨sst3, [], false, down, []⟩ ∧
          ∀ (cst2 : ClientState) (p : Path), cst2.file = some p →
            cst2.fs.lookup p = some (.file []) → C'.host.oom cst2.hashes = false →
            ∃ cst3 inp' evs,
              Runs (C'.decryptAndReadFromServer act') ⟨cst2, sent down, false, [], []⟩ 0
                ⟨cst3, inp', false, evs, []⟩ ∧
              cst3.fs.lookup p = some (.file c) := by
  have hlen' : name.length ≤ PRE_EXT_FILE_NAME_LEN := by
    simp only [List.length_append] at hlen
    omega
  have hext : (0 : UInt8) ∉ name ++ ext := by
    simp only [List.mem_append, not_or]
    exact ⟨hnul, by decide⟩
  have hdir : E'.user_dir = E.user_dir := by simp [ServerEnv.user_dir, huser]
  obtain ⟨r, key, salt, cst1, sst1, up, got, hs, hk, hup, hgot, hfs⟩ :=
    upload_stores hl act SA hnul hlen' ho sst
  refine ⟨cst1, sst1, up, got, hup, hgot, fun sst2 hsame act' n hn => ?_⟩
  rw [hfs, FS.openRead_stored hopen, hk hoom, ← hna, ← hpw, ← hcwd, ← hdir,
    ← cstr_of_noNul hext] at hsame
  exact download_of_stored hl' (by rw [hna]; exact hS) act' hn hlen hs hsame

/-! ## A small session to run the model on -/

/-- `"alice"` -/
def alice : Name := [97, 108, 105, 99, 101]

/-- `"MEF_S"` -/
def mefS : Name := [77, 69, 70, 95, 83]

def quietHost : Host := ⟨fun _ => [], fun _ => [], fun _ => false⟩

def aliceClient : ClientEnv := ⟨plainSodium, quietHost, [1], [2], [], [112, 119]⟩

def aliceServer : ServerEnv := ⟨plainSodium, quietHost, [1], [2], [], alice⟩

theorem alice_linked : Linked aliceClient aliceServer := ⟨rfl, rfl, rfl⟩

/-- The server with an empty directory for alice. -/
def aliceDir : FsOperator :=
  ⟨((∅ : FS).insert [mefS] .dir).insert [mefS, alice] .dir, [], none, 0, 0, []⟩

/-- The client with a file `"a"` of three bytes. -/
def aliceHome : ClientState := ⟨(∅ : FS).insert [[97]] (.file [1, 2, 3]), [], none, 0, 0, 0, [], []⟩

/-- The client with the output file `"a"` just opened. -/
def aliceOut : ClientState :=
  { aliceHome with fs := (∅ : FS).insert [[97]] (.file []), file := some [[97]] }

theorem upload_download_alice :
    ∃ down cst3 inp' evs,
      Runs (aliceClient.decryptAndReadFromServer 1) ⟨aliceOut, down, false, [], []⟩ 0
        ⟨cst3, inp', false, evs, []⟩ ∧ cst3.fs.lookup [[97]] = some (.file [1, 2, 3]) := by
  have hfile : aliceHome.fs.openRead aliceClient.cwd [97] = some ⟨[1, 2, 3], false⟩ := by decide
  have hopen : (aliceDir.fs.openTrunc aliceServer.cwd (aliceServer.user_dir ++ ([97] ++ ext))).isSome := by
    decide
  obtain ⟨cst1, sst1, up, got, -, -, h⟩ := upload_download alice_linked alice_linked rfl rfl rfl rfl
    plainStream_correct (by decide) (by decide) hfile rfl 0 ⟨[], [], []⟩ hopen
  obtain ⟨sst3, down, -, h⟩ := h sst1 rfl 1 [0, 0, 0, 0, 0, 0, 0, 0] rfl
  obtain ⟨cst3, inp', evs, hr, hc⟩ := h aliceOut [[97]] rfl (by decide) rfl
  exact ⟨_, cst3, inp', evs, hr, hc⟩

end Mefsc.L4
