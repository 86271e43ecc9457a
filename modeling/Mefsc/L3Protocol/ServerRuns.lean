import Mefsc.L3Protocol.Server

/-!
# What the server's handlers do with an honest client's frames

One lemma for each handler: on the frames a client writes for that action it
runs to the end, reads exactly those frames, and this is what it sends and
what becomes of the file system.
-/
namespace Mefsc.L3

open L1 L1.SessionEncWrapper L2
open Proc hiding ret recv send act iter bind

/-- A name frame carries its terminator, so the C string in the buffer is the
name whatever follows. -/
theorem cstr_blit_nul (name mem : Bytes) : cstr (blit (name ++ [0]) mem) = cstr name := by
  by_cases h : (0 : UInt8) ∈ name
  · rw [blit, List.append_assoc, cstr_append_of_mem h]
  · rw [blit, List.append_assoc, List.singleton_append, cstr_append_nul h, cstr_of_noNul h]

theorem cstr_terminate (name mem : Bytes) :
    cstr (ServerEnv.terminate (blit name mem) name.length) = cstr name := by
  have ht : (blit name mem).take name.length = name := List.take_left' rfl
  rw [ServerEnv.terminate, ht]
  by_cases h : (0 : UInt8) ∈ name
  · exact cstr_append_of_mem h _
  · rw [cstr_append_nul h, cstr_of_noNul h]

namespace ServerEnv

variable {E : ServerEnv} (st : FsOperator) (inp rest : Bytes) (e : Bool) (h : List (Ev Role))

/-! ## Dispatch -/

theorem runs_receiveNotice (act : Nat) {n : Bytes} (hn : n.length = 8) {v : Int}
    (lo : -2 ^ 31 ≤ v) (hi : v < 2 ^ 31) :
    Runs (E.receiveNoticeOfNewAction act)
      ⟨st, frame E.na.aead E.server_rx n (i32Enc v) ++ rest, e, h, []⟩
      (if v = NEW_ACTION then 0 else 1)
      ⟨{ st with locals := st.locals + 1 }, rest, e,
        h ++ frameRcvs E.na.aead ⟨act, .notice⟩ E.server_rx n (i32Enc v), []⟩ := by
  refine Runs.modifyGet_bind ?_
  refine Runs.ofSock_bind _ e h hn (i32_short v) ?_
  obtain ⟨h0, hv⟩ := unwrap_received_i32 E.na.aead E.server_rx n lo hi
    (fit_length 4 (E.host.stack st.locals)) 0
  simp only [received_corrupted, h0, hv]
  by_cases hnew : v = NEW_ACTION <;> simp [hnew]

theorem runs_readIntent (act : Nat) {n : Bytes} (hn : n.length = 8) {v : Int}
    (lo : -2 ^ 31 ≤ v) (hi : v < 2 ^ 31) :
    Runs (E.readIntent act)
      ⟨st, frame E.na.aead E.server_rx n (i32Enc v) ++ rest, e, h, []⟩ v
      ⟨{ st with locals := st.locals + 1 }, rest, e,
        h ++ frameRcvs E.na.aead ⟨act, .intent⟩ E.server_rx n (i32Enc v), []⟩ := by
  refine Runs.modifyGet_bind ?_
  refine Runs.ofSock_bind _ e h hn (i32_short v) ?_
  obtain ⟨h0, hv⟩ := unwrap_received_i32 E.na.aead E.server_rx n lo hi
    (fit_length 4 (E.host.stack st.locals)) 0
  simp [h0, hv]

/-! ## Upload -/

/-- What a client sends before the chunks of an upload, with the nonce before. -/
theorem runs_initRead (act : Nat) (nonce : Bytes) {name header salt : Bytes}
    (hname : name.length ≤ PRE_EXT_FILE_NAME_LEN) (hh : header.length = STREAM_HEADERBYTES)
    (hs : salt.length = PWHASH_SALTBYTES) (buf hbuf sbuf : Bytes)
    (hhb : hbuf.length = STREAM_HEADERBYTES) (hsb : sbuf.length = PWHASH_SALTBYTES) :
    Runs (E.initRead act buf hbuf sbuf)
      ⟨st, sent (initEvs E.na.aead E.server_rx act nonce name header salt) ++ rest, e, h, []⟩
      (.ok (terminate (blit name buf) name.length, header, salt))
      ⟨{ st with locals := st.locals + 1 }, rest, e,
        h ++ initRcvs E.na.aead E.server_rx act nonce name header salt, []⟩ := by
  have h250 : name.length ≤ FILE_ENCRYPTED_CHUNK_SIZE := hname.trans (by decide)
  have h24 : header.length ≤ FILE_ENCRYPTED_CHUNK_SIZE := by rw [hh]; decide
  have h16 : salt.length ≤ FILE_ENCRYPTED_CHUNK_SIZE := by rw [hs]; decide
  have hhead : blit header hbuf = header := blit_eq_of_length (by omega)
  have hsalt : blit salt sbuf = salt := blit_eq_of_length (by omega)
  have hext : ¬ MAX_FILE_NAME_LENGTH < (name.length + ext.length) % 2 ^ 64 := by
    simp only [MAX_FILE_NAME_LENGTH, PRE_EXT_FILE_NAME_LEN, ext, List.length_cons, List.length_nil] at *
    omega
  simp only [initEvs, sent, List.append_assoc, List.append_nil]
  refine Runs.ofSock_bind _ e h (by simp) (by decide) ?_
  rw [unwrap_received _ _ _ (by decide) (by decide)]
  simp only [ne_eq, not_true_eq_false, if_false, blit, List.singleton_append, List.take_succ_cons,
    List.cons.injEq, List.take_zero]
  refine Runs.ofSock_bind _ e _ (by simp) h250 ?_
  simp only [received_corrupted, Bool.false_eq_true, if_false]
  refine Runs.modifyGet_bind ?_
  rw [unwrap_received _ _ _ h250 hname]
  simp only [show ¬ (0 : Int) = 2 by decide, hext, if_false]
  refine Runs.ofSock_bind _ e _ (by simp) h24 ?_
  rw [unwrap_received _ _ _ h24 hh.le]
  simp only [received_corrupted, Bool.false_eq_true, if_false, not_true_eq_false, and_false]
  refine Runs.ofSock_bind _ e _ (by simp) h16 ?_
  rw [unwrap_received _ _ _ h16 hs.le, hhead, hsalt]
  simp [initRcvs, blit]

theorem runs_wtfsRound (act j : Nat) (p : Int) (pub : List Bytes) {n : Bytes} (hn : n.length = 8)
    {v : Int} (lo : -2 ^ 31 ≤ v) (hi : v < 2 ^ 31) {b : Bytes}
    (hb : b.length ≤ FILE_ENCRYPTED_CHUNK_SIZE) :
    Runs (E.wtfsRound act (j, p, pub))
      ⟨st, frame E.na.aead E.server_rx n (i32Enc v) ++ (blob b ++ rest), e, h, []⟩
      (if v = END_CHUNK then .inr (0, pub ++ [b])
        else if v = MEAT_CHUNK then .inl (j + 1, v, pub ++ [b]) else .inr (0, pub ++ [b]))
      ⟨st, rest, e, h ++ (frameRcvs E.na.aead ⟨act, .chunkPrefix j⟩ E.server_rx n (i32Enc v) ++
        blobRcvs ⟨act, .chunk j⟩ b), []⟩ := by
  refine Runs.ofSock_bind _ e h hn (i32_short v) ?_
  obtain ⟨h0, hv⟩ := unwrap_received_i32 E.na.aead E.server_rx n lo hi (i32Enc_length p) 0
  simp only [received_corrupted, h0, hv, Bool.false_eq_true, if_false, ne_eq, not_true_eq_false]
  refine Runs.bind (runs_recvRawBlob st e _ _ hb (Nat.lt_of_le_of_lt hb (by decide)) rest) ?_
  by_cases h1 : v = END_CHUNK
  · simp [h1]
  · simp only [h1, if_false]
    by_cases h2 : v = MEAT_CHUNK <;> simp [h2]

/-- The receiving loop takes the chunks of a whole file. -/
theorem runs_wtfsLoop (act : Nat) {bs : List Bytes} (hne : bs ≠ [])
    (hb : ∀ b ∈ bs, b.length ≤ FILE_ENCRYPTED_CHUNK_SIZE) (nonce : Bytes) (j : Nat) (p : Int)
    (pub : List Bytes) :
    Runs (loop (E.wtfsRound act) (j, p, pub))
      ⟨st, sent (chunkEvs E.na.aead E.server_rx act nonce j (marked bs)) ++ rest, e, h, []⟩
      (0, pub ++ bs)
      ⟨st, rest, e, h ++ chunkRcvs E.na.aead E.server_rx act nonce j (marked bs), []⟩ := by
  induction bs generalizing nonce j p pub h with
  | nil => exact absurd rfl hne
  | cons b bs ih =>
    have hb0 := hb b List.mem_cons_self
    rw [runs_loop]
    cases bs with
    | nil =>
      simp only [marked, sent_chunkEvs_cons, List.append_assoc]
      refine ⟨_, _, runs_wtfsRound st _ e h act j p pub (by simp) (by decide) (by decide) hb0, ?_⟩
      simp [chunkEvs, chunkRcvs, sent]
    | cons b' bs =>
      simp only [marked, sent_chunkEvs_cons, List.append_assoc]
      refine ⟨_, _, runs_wtfsRound st _ e h act j p pub (by simp) (by decide) (by decide) hb0, ?_⟩
      simp only [show MEAT_CHUNK ≠ END_CHUNK by decide, if_false, if_true]
      have := ih (h ++ (frameRcvs E.na.aead ⟨act, .chunkPrefix j⟩ E.server_rx (sodiumIncrement nonce)
        (i32Enc MEAT_CHUNK) ++ blobRcvs ⟨act, .chunk j⟩ b)) (by simp)
        (fun x hx => hb x (List.mem_cons_of_mem _ hx)) (sodiumIncrement nonce) (j + 1) MEAT_CHUNK
        (pub ++ [b])
      simpa [chunkRcvs] using this

theorem written_written (a b : Bytes) (s : FsOperator) (name : Bytes) :
    written b (written a (E.opened name s)) = written (a ++ b) (E.opened name s) := by
  unfold opened
  split
  · rfl
  · rename_i ho
    rw [FS.openTrunc_eq ho]
    simp [written, FS.append_insert]

/-- What the writes of an upload leave behind. -/
theorem written_opened (b : Bytes) (s : FsOperator) (name : Bytes) :
    (written b (E.opened name s)).fs = s.fs.stored E.cwd (E.user_dir ++ name) b ∧
      (written b (E.opened name s)).names = s.names ++ [name] := by
  unfold opened FS.stored
  cases ho : s.fs.openTrunc E.cwd (E.user_dir ++ name) with
  | none => exact ⟨rfl, rfl⟩
  | some x =>
    obtain ⟨p, fs⟩ := x
    obtain rfl := FS.openTrunc_eq ho
    simp [written, FS.append_insert]

/-- An upload with a name that fits: the file holds header, salt and chunks. -/
theorem runs_wtfsHandlerServer (act : Nat) (nonce nonce' : Bytes) {name header salt : Bytes}
    (hname : name.length ≤ PRE_EXT_FILE_NAME_LEN) (hh : header.length = STREAM_HEADERBYTES)
    (hs : salt.length = PWHASH_SALTBYTES) {bs : List Bytes} (hne : bs ≠ [])
    (hb : ∀ b ∈ bs, b.length ≤ FILE_ENCRYPTED_CHUNK_SIZE) :
    ∃ st' : FsOperator,
      st'.fs = st.fs.stored E.cwd (E.user_dir ++ (cstr name ++ ext)) (header ++ salt ++ bs.flatten) ∧
      st'.names = st.names ++ [cstr name ++ ext] ∧
      Runs (E.wtfsHandlerServer act)
        ⟨st, sent (initEvs E.na.aead E.server_rx act nonce name header salt) ++
          (sent (chunkEvs E.na.aead E.server_rx act nonce' 0 (marked bs)) ++ rest), e, h, []⟩ 0
        ⟨st', rest, e, h ++ (initRcvs E.na.aead E.server_rx act nonce name header salt ++
          chunkRcvs E.na.aead E.server_rx act nonce' 0 (marked bs)), []⟩ := by
  let st4 : FsOperator := { st with locals := st.locals + 4 }
  refine ⟨written (header ++ salt ++ bs.flatten) (E.opened (cstr name ++ ext) st4),
    (written_opened _ st4 _).1, (written_opened _ st4 _).2, ?_⟩
  refine Runs.modifyGet_bind ?_
  refine Runs.modifyGet_bind ?_
  refine Runs.modifyGet_bind ?_
  refine Runs.bind (runs_initRead _ _ e h act nonce hname hh hs _ _ _ (fit_length _ _)
    (fit_length _ _)) ?_
  simp only [cstr_terminate]
  refine Runs.modify_bind ?_
  refine Runs.modify_bind ?_
  refine Runs.modify_bind ?_
  refine Runs.bind (runs_wtfsLoop _ rest e _ act hne hb nonce' 0 END_CHUNK []) ?_
  refine Runs.modify_bind ?_
  simp only [runs_pure, true_and, List.append_assoc, List.nil_append, written_written, writerOutput]
  rfl

/-- The client has no such file. -/
theorem runs_initRead_missing (act : Nat) {n : Bytes} (hn : n.length = 8) (buf hbuf sbuf : Bytes) :
    Runs (E.initRead act buf hbuf sbuf)
      ⟨st, frame E.na.aead E.server_rx n [0] ++ rest, e, h, []⟩ (.error 5)
      ⟨st, rest, e, h ++ frameRcvs E.na.aead ⟨act, .fileExists⟩ E.server_rx n [0], []⟩ := by
  refine Runs.ofSock_bind _ e h hn (by decide) ?_
  rw [unwrap_received _ _ _ (by decide) (by decide)]
  simp [blit]

/-- A name that does not fit `file_name_buf`: the header comes next. -/
theorem runs_initRead_longName (act : Nat) {n n' name : Bytes} (hn : n.length = 8)
    (hn' : n'.length = 8) (hname : PRE_EXT_FILE_NAME_LEN < name.length)
    (hl : name.length ≤ FILE_ENCRYPTED_CHUNK_SIZE) (buf hbuf sbuf : Bytes) :
    Runs (E.initRead act buf hbuf sbuf)
      ⟨st, frame E.na.aead E.server_rx n [1] ++ (frame E.na.aead E.server_rx n' name ++ rest), e, h,
        []⟩ (.error 8)
      ⟨{ st with locals := st.locals + 1 }, rest, e,
        h ++ (frameRcvs E.na.aead ⟨act, .fileExists⟩ E.server_rx n [1] ++
          frameRcvs E.na.aead ⟨act, .fileName⟩ E.server_rx n' name), []⟩ := by
  refine Runs.ofSock_bind _ e h hn (by decide) ?_
  rw [unwrap_received _ _ _ (by decide) (by decide)]
  simp only [ne_eq, not_true_eq_false, if_false, blit, List.singleton_append, List.take_succ_cons,
    List.cons.injEq, List.take_zero]
  refine Runs.ofSock_bind _ e _ hn' hl ?_
  simp only [received_corrupted, Bool.false_eq_true, if_false]
  refine Runs.modifyGet_bind ?_
  rw [unwrap_received_too_long _ _ _ hl hname]
  simp

/-- The handler gives up where `init_read` does. -/
theorem runs_wtfs_refused (act : Nat) {inp' : Bytes} {evs : List (Ev Role)} {k : Nat} {r : Int}
    (hi : ∀ (st : FsOperator) (buf hbuf sbuf : Bytes),
      Runs (E.initRead act buf hbuf sbuf) ⟨st, inp, e, h, []⟩ (.error r)
        ⟨{ st with locals := st.locals + k }, inp', e, h ++ evs, []⟩) :
    Runs (E.wtfsHandlerServer act) ⟨st, inp, e, h, []⟩ 1
      ⟨{ st with locals := st.locals + 3 + k }, inp', e, h ++ evs, []⟩ := by
  refine Runs.modifyGet_bind ?_
  refine Runs.modifyGet_bind ?_
  refine Runs.modifyGet_bind ?_
  refine Runs.bind (hi _ _ _ _) ?_
  simp

/-! ### An upload without an end -/

variable (E) in
/-- An upload up to its loop; `false`: `init_read` failed. -/
def openUpload (act : Nat) : Server Bool := do
  let file_name_buf ← E.uninit
  let header ← E.uninit
  let salt ← E.uninit
  match ← E.initRead act file_name_buf (fit STREAM_HEADERBYTES header) (fit PWHASH_SALTBYTES salt) with
  | .error _ => return false
  | .ok (file_name_buf, header, salt) =>
    E.openOut (cstr file_name_buf ++ ext)
    writeOut header
    writeOut salt
    return true

variable (E) in
def takeAll (act : Nat) : Bool → Server Int
  | false => pure 1
  | true => loop (E.wtfsRound act) (0, END_CHUNK, []) >>= fun x => do
    writeOut (writerOutput x.2)
    return x.1

theorem wtfsHandlerServer_eq (act : Nat) :
    E.wtfsHandlerServer act = E.openUpload act >>= E.takeAll act := by
  simp only [wtfsHandlerServer, openUpload, LawfulMonad.bind_assoc]
  refine congrArg (E.uninit >>= ·) (funext fun buf => ?_)
  refine congrArg (E.uninit >>= ·) (funext fun header => ?_)
  refine congrArg (E.uninit >>= ·) (funext fun salt => ?_)
  refine congrArg (E.initRead act buf (fit STREAM_HEADERBYTES header) (fit PWHASH_SALTBYTES salt) >>= ·)
    (funext fun x => ?_)
  cases x with
  | error r => simp [takeAll]
  | ok x => simp [takeAll]

theorem runs_openUpload (act : Nat) (nonce : Bytes) {name header salt : Bytes}
    (hname : name.length ≤ PRE_EXT_FILE_NAME_LEN) (hh : header.length = STREAM_HEADERBYTES)
    (hs : salt.length = PWHASH_SALTBYTES) :
    Runs (E.openUpload act)
      ⟨st, sent (initEvs E.na.aead E.server_rx act nonce name header salt) ++ rest, e, h, []⟩ true
      ⟨written (header ++ salt) (E.opened (cstr name ++ ext) { st with locals := st.locals + 4 }), rest, e,
        h ++ initRcvs E.na.aead E.server_rx act nonce name header salt, []⟩ := by
  refine Runs.modifyGet_bind ?_
  refine Runs.modifyGet_bind ?_
  refine Runs.modifyGet_bind ?_
  refine Runs.bind (runs_initRead _ _ e h act nonce hname hh hs _ _ _ (fit_length _ _)
    (fit_length _ _)) ?_
  simp only [cstr_terminate]
  refine Runs.modify_bind ?_
  refine Runs.modify_bind ?_
  refine Runs.modify_bind ?_
  simp [written_written]

/-- The receiving loop on chunks none of which is the last. -/
theorem steps_wtfsLoop {α : Type} (act : Nat) (f : Int × List Bytes → Server α) {cs : List (Int × Bytes)}
    (hcs : ∀ c ∈ cs, c.1 = MEAT_CHUNK ∧ c.2.length ≤ FILE_ENCRYPTED_CHUNK_SIZE) (nonce : Bytes) (j : Nat)
    (p : Int) (pub : List Bytes) :
    ∃ (m : Nat) (g : Receiving), cs.length ≤ m ∧
      Party.Steps e m ⟨loop (E.wtfsRound act) (j, p, pub) >>= f, st,
          sent (chunkEvs E.na.aead E.server_rx act nonce j cs) ++ rest, h⟩
        ⟨loop (E.wtfsRound act) g >>= f, st, rest, h ++ chunkRcvs E.na.aead E.server_rx act nonce j cs⟩ [] := by
  induction cs generalizing nonce j p pub h with
  | nil => exact ⟨0, _, Nat.le_refl 0, by simpa [chunkEvs, chunkRcvs, sent] using Party.Steps.refl _⟩
  | cons c cs ih =>
    obtain ⟨v, b⟩ := c
    obtain ⟨hv, hb⟩ := hcs (v, b) List.mem_cons_self
    obtain rfl : v = MEAT_CHUNK := hv
    have hround := runs_wtfsRound (E := E) st
      (sent (chunkEvs E.na.aead E.server_rx act (sodiumIncrement nonce) (j + 1) cs) ++ rest) e h act j p pub
      (sodiumIncrement_length nonce) (v := MEAT_CHUNK) (by decide) (by decide) hb
    obtain ⟨m1, hs1⟩ := Party.Steps.round f hround
    simp only [show MEAT_CHUNK ≠ END_CHUNK by decide, if_false, if_true] at hs1
    obtain ⟨m2, g, hm, hs2⟩ := ih
      (h ++ (frameRcvs E.na.aead ⟨act, .chunkPrefix j⟩ E.server_rx (sodiumIncrement nonce)
        (i32Enc MEAT_CHUNK) ++ blobRcvs ⟨act, .chunk j⟩ b))
      (fun x hx => hcs x (List.mem_cons_of_mem _ hx)) (sodiumIncrement nonce) (j + 1) MEAT_CHUNK (pub ++ [b])
    refine ⟨m1 + 1 + m2, g, by simp only [List.length_cons]; omega, ?_⟩
    rw [sent_chunkEvs_cons, List.append_assoc, List.append_assoc]
    simpa [chunkRcvs, again] using hs1.trans hs2

/-! ## Download -/

theorem runs_sendSession (r : Role) (m : Bytes) :
    Runs (E.sendSession r m) ⟨st, inp, e, h, []⟩ ()
      ⟨{ st with nonce := sodiumIncrement st.nonce }, inp, e,
        h ++ [.snd r (frame E.na.aead E.server_tx (sodiumIncrement st.nonce) m)], []⟩ := by
  refine Runs.read_bind ?_
  refine Runs.bind (runs_sendFrame st e h _ r inp m _ _) ?_
  simp

theorem runs_rffsRound (act j : Nat) (file : IStream) :
    Runs (E.rffsRound act (j, file)) ⟨st, inp, e, h, []⟩
      (if (file.read FILE_ENCRYPTED_CHUNK_SIZE).2.eofbit then .inr 0
        else .inl (j + 1, (file.read FILE_ENCRYPTED_CHUNK_SIZE).2))
      ⟨{ st with nonce := sodiumIncrement st.nonce }, inp, e,
        h ++ (.snd ⟨act, .chunkPrefix j⟩ (frame E.na.aead E.server_tx (sodiumIncrement st.nonce)
          (i32Enc (if (file.read FILE_ENCRYPTED_CHUNK_SIZE).2.eofbit then END_CHUNK else MEAT_CHUNK))) ::
          blobEvs ⟨act, .chunk j⟩ (file.read FILE_ENCRYPTED_CHUNK_SIZE).1), []⟩ := by
  rcases hx : file.read FILE_ENCRYPTED_CHUNK_SIZE with ⟨file_chunk, file'⟩
  simp only [rffsRound, hx]
  refine Runs.bind (runs_sendSession st inp e h _ _) ?_
  refine Runs.bind (runs_sendRawBlob _ e _ _ inp _) ?_
  cases file'.eofbit <;> simp

/-- The sending loop cuts the rest of the file into blocks. -/
theorem runs_rffsLoop (act : Nat) (b : Bytes) (j : Nat) :
    ∃ n, Runs (loop (E.rffsRound act) (j, IStream.fresh b)) ⟨st, inp, e, h, []⟩ 0
      ⟨{ st with nonce := n }, inp, e, h ++ chunkEvs E.na.aead E.server_tx act st.nonce j
        (marked (cut FILE_ENCRYPTED_CHUNK_SIZE b)), []⟩ := by
  induction b using cut_induct file_chunk_size_pos generalizing st h j with
  | short b hb =>
    refine ⟨sodiumIncrement st.nonce, ?_⟩
    rw [runs_loop]
    refine ⟨_, _, runs_rffsRound st inp e h act j _, ?_⟩
    simp [IStream.read_short hb, cut_short file_chunk_size_pos hb, marked, chunkEvs]
  | long b hb ih =>
    obtain ⟨n, hr⟩ := ih { st with nonce := sodiumIncrement st.nonce }
      (h ++ (.snd ⟨act, .chunkPrefix j⟩ (frame E.na.aead E.server_tx (sodiumIncrement st.nonce)
        (i32Enc MEAT_CHUNK)) :: blobEvs ⟨act, .chunk j⟩ (b.take FILE_ENCRYPTED_CHUNK_SIZE))) (j + 1)
    refine ⟨n, ?_⟩
    rw [runs_loop]
    refine ⟨_, _, runs_rffsRound st inp e h act j _, ?_⟩
    rw [cut_long file_chunk_size_pos hb]
    obtain ⟨c, cs, hc⟩ := List.exists_cons_of_ne_nil
      (cut_ne_nil file_chunk_size_pos (b.drop FILE_ENCRYPTED_CHUNK_SIZE))
    rw [hc] at hr ⊢
    simpa [IStream.read_full hb, marked, chunkEvs] using hr

/-- The header the server sends for a file: its first 24 bytes, and what
the buffer held before when there are fewer. -/
def sentHeader (c mem : Bytes) : Bytes :=
  blit (c.take STREAM_HEADERBYTES) (fit STREAM_HEADERBYTES mem)

def sentSalt (c mem : Bytes) : Bytes :=
  blit ((c.drop STREAM_HEADERBYTES).take PWHASH_SALTBYTES) (fit PWHASH_SALTBYTES mem)

/-- The blocks the server sends behind them. -/
def sentChunks (c : Bytes) : List Bytes :=
  cut FILE_ENCRYPTED_CHUNK_SIZE (c.drop (STREAM_HEADERBYTES + PWHASH_SALTBYTES))

/-- The two reads in front of the loop. -/
theorem read_header_salt (c : Bytes) :
    ∃ f f', (IStream.fresh c).read STREAM_HEADERBYTES = (c.take STREAM_HEADERBYTES, f) ∧
      f.read PWHASH_SALTBYTES = ((c.drop STREAM_HEADERBYTES).take PWHASH_SALTBYTES, f') ∧
      (f' = .fresh (c.drop (STREAM_HEADERBYTES + PWHASH_SALTBYTES)) ∨
        f' = .ended ∧ c.drop (STREAM_HEADERBYTES + PWHASH_SALTBYTES) = []) := by
  by_cases h1 : STREAM_HEADERBYTES ≤ c.length
  · by_cases h2 : PWHASH_SALTBYTES ≤ (c.drop STREAM_HEADERBYTES).length
    · exact ⟨_, _, IStream.read_full h1, IStream.read_full h2, .inl (by simp [List.drop_drop])⟩
    · refine ⟨_, .ended, IStream.read_full h1, ?_, .inr ⟨rfl, ?_⟩⟩
      · rw [IStream.read_short (by omega), List.take_of_length_le (by omega)]
      · rw [List.length_drop] at h2
        exact List.drop_eq_nil_of_le (by omega)
  · refine ⟨.ended, .ended, ?_, ?_, .inr ⟨rfl, List.drop_eq_nil_of_le (by omega)⟩⟩
    · rw [IStream.read_short (by omega), List.take_of_length_le (by omega)]
    · simp [List.drop_eq_nil_of_le (show c.length ≤ STREAM_HEADERBYTES by omega)]

/-- Whatever the file, the chunks are the blocks of what follows the salt. -/
theorem runs_rffsLoop_file (act : Nat) (c : Bytes) {f : IStream}
    (hf : f = .fresh (c.drop (STREAM_HEADERBYTES + PWHASH_SALTBYTES)) ∨
      f = .ended ∧ c.drop (STREAM_HEADERBYTES + PWHASH_SALTBYTES) = []) :
    ∃ n, Runs (loop (E.rffsRound act) (0, f)) ⟨st, inp, e, h, []⟩ 0
      ⟨{ st with nonce := n }, inp, e,
        h ++ chunkEvs E.na.aead E.server_tx act st.nonce 0 (marked (sentChunks c)), []⟩ := by
  rcases hf with rfl | ⟨rfl, hd⟩
  · exact runs_rffsLoop st inp e h act _ 0
  · refine ⟨sodiumIncrement st.nonce, ?_⟩
    rw [runs_loop]
    refine ⟨_, _, runs_rffsRound st inp e h act 0 _, ?_⟩
    have hcut : cut FILE_ENCRYPTED_CHUNK_SIZE ([] : Bytes) = [[]] :=
      cut_short file_chunk_size_pos file_chunk_size_pos
    simp [sentChunks, hd, hcut, marked, chunkEvs]

/-! ### The download handler in parts -/

variable (E) in
/-- Up to the file name. -/
def takeName (act : Nat) : Server (Bytes × SessionEncWrapper) := do
  E.freshNonce
  let file_name_buf ← E.uninit
  let encrypted_file_name ← ofSock ⟨act, .fileName⟩
  return (file_name_buf, encrypted_file_name)

variable (E) in
/-- Header and salt. -/
def sendHead (act : Nat) (src : Source) : Server IStream := do
  let header ← E.uninit
  let salt ← E.uninit
  let (h, file) := (IStream.ofSource src).read STREAM_HEADERBYTES
  E.sendSession ⟨act, .header⟩ (blit h (fit STREAM_HEADERBYTES header))
  let (s, file) := file.read PWHASH_SALTBYTES
  E.sendSession ⟨act, .salt⟩ (blit s (fit PWHASH_SALTBYTES salt))
  return file

variable (E) in
/-- From the name to the loop: the return value, or the file the loop reads. -/
def openFile (act : Nat) (x : Bytes × SessionEncWrapper) : Server (Int ⊕ IStream) := do
  if x.2.corrupted then return .inl 3
  else
    let u := x.2.unwrap E.na.aead E.server_rx PRE_EXT_FILE_NAME_LEN x.1 0
    if u.ret ≠ 0 then return .inl 2
    else
      match ← E.openIn (cstr u.decrypted_data) with
      | none => return .inl 1
      | some src => return .inr (← E.sendHead act src)

variable (E) in
def sendRest (act : Nat) : Int ⊕ IStream → Server Int
  | .inl r => pure r
  | .inr file => loop (E.rffsRound act) (0, file)

theorem sendFile_eq (act : Nat) (src : Source) :
    E.sendFile act src = E.sendHead act src >>= fun file => E.sendRest act (.inr file) := by
  simp [sendFile, sendHead, sendRest]

theorem openFile_eq (act : Nat) (x : Bytes × SessionEncWrapper) :
    E.openFile act x >>= E.sendRest act =
      (do
        if x.2.corrupted then return 3
        else
          let u := x.2.unwrap E.na.aead E.server_rx PRE_EXT_FILE_NAME_LEN x.1 0
          if u.ret ≠ 0 then return 2
          else
            match ← E.openIn (cstr u.decrypted_data) with
            | none => return 1
            | some src => E.sendFile act src) := by
  unfold openFile
  by_cases hc : x.2.corrupted
  · simp [hc, sendRest]
  · by_cases hu : (x.2.unwrap E.na.aead E.server_rx PRE_EXT_FILE_NAME_LEN x.1 0).ret = 0
    · simp only [hc, hu, ne_eq, not_true_eq_false, if_false, LawfulMonad.bind_assoc, Bool.false_eq_true]
      refine congrArg (E.openIn _ >>= ·) (funext fun o => ?_)
      cases o with
      | none => rfl
      | some src => simp [sendFile_eq]
    · simp [hc, hu, sendRest]

theorem rffsHandlerServer_eq (act : Nat) :
    E.rffsHandlerServer act = E.takeName act >>= fun x => E.openFile act x >>= E.sendRest act := by
  simp only [openFile_eq, takeName, LawfulMonad.bind_assoc, pure_bind]
  rfl

/-! ### Its runs -/

theorem runs_sendHead (act : Nat) (src : Source) {hd sl : Bytes} {f f' : IStream}
    (h1 : (IStream.ofSource src).read STREAM_HEADERBYTES = (hd, f))
    (h2 : f.read PWHASH_SALTBYTES = (sl, f')) :
    Runs (E.sendHead act src) ⟨st, inp, e, h, []⟩ f'
      ⟨{ st with nonce := sodiumIncrement (sodiumIncrement st.nonce), locals := st.locals + 2 }, inp, e,
        h ++ [.snd ⟨act, .header⟩ (frame E.na.aead E.server_tx (sodiumIncrement st.nonce)
            (blit hd (fit STREAM_HEADERBYTES (E.host.stack st.locals)))),
          .snd ⟨act, .salt⟩ (frame E.na.aead E.server_tx (sodiumIncrement (sodiumIncrement st.nonce))
            (blit sl (fit PWHASH_SALTBYTES (E.host.stack (st.locals + 1)))))], []⟩ := by
  simp only [sendHead, h1, h2]
  refine Runs.modifyGet_bind ?_
  refine Runs.modifyGet_bind ?_
  refine Runs.bind (runs_sendSession _ inp e h _ _) ?_
  refine Runs.bind (runs_sendSession _ inp e _ _ _) ?_
  simp

theorem name_short {name : Bytes} (hl : (name ++ [0]).length ≤ PRE_EXT_FILE_NAME_LEN) :
    (name ++ [0]).length ≤ FILE_ENCRYPTED_CHUNK_SIZE := hl.trans (by decide)

theorem runs_sendFile (act : Nat) (c : Bytes) :
    ∃ (n m1 m2 : Bytes), Runs (E.sendFile act ⟨c, false⟩) ⟨st, inp, e, h, []⟩ 0
      ⟨{ st with nonce := n, locals := st.locals + 2 }, inp, e,
        h ++ fileEvs E.na.aead E.server_tx act st.nonce (sentHeader c m1) (sentSalt c m2)
          (sentChunks c), []⟩ := by
  obtain ⟨f, f', hf, hf', hrest⟩ := read_header_salt c
  have hhead := runs_sendHead (E := E) st inp e h act ⟨c, false⟩ hf hf'
  obtain ⟨n, hloop⟩ := runs_rffsLoop_file (E := E)
    { st with nonce := sodiumIncrement (sodiumIncrement st.nonce), locals := st.locals + 2 } inp e
    (h ++ [.snd ⟨act, .header⟩ (frame E.na.aead E.server_tx (sodiumIncrement st.nonce)
        (sentHeader c (E.host.stack st.locals))),
      .snd ⟨act, .salt⟩ (frame E.na.aead E.server_tx (sodiumIncrement (sodiumIncrement st.nonce))
        (sentSalt c (E.host.stack (st.locals + 1))))]) act c hrest
  refine ⟨n, E.host.stack st.locals, E.host.stack (st.locals + 1), ?_⟩
  rw [sendFile_eq]
  rw [List.append_assoc] at hloop
  exact Runs.bind hhead hloop

theorem runs_freshNonce :
    Runs E.freshNonce ⟨st, inp, e, h, []⟩ ()
      ⟨{ st with nonce := fit AEAD_NPUBBYTES (E.host.rand st.draws), draws := st.draws + 1 }, inp, e,
        h, []⟩ :=
  Runs.modifyGet_bind ((runs_modify _ _ _ _).mpr rfl)

theorem runs_takeName (act : Nat) {n name : Bytes} (hn : n.length = 8)
    (hs : (name ++ [0]).length ≤ FILE_ENCRYPTED_CHUNK_SIZE) :
    ∃ (st' : FsOperator) (buf : Bytes), st'.fs = st.fs ∧ st'.names = st.names ∧
      Runs (E.takeName act) ⟨st, frame E.na.aead E.server_rx n (name ++ [0]) ++ rest, e, h, []⟩
        (buf, received E.na.aead E.server_rx n (name ++ [0]))
        ⟨st', rest, e, h ++ frameRcvs E.na.aead ⟨act, .fileName⟩ E.server_rx n (name ++ [0]), []⟩ := by
  refine ⟨{ st with nonce := fit AEAD_NPUBBYTES (E.host.rand st.draws), draws := st.draws + 1,
                    locals := st.locals + 1 }, E.host.stack st.locals, rfl, rfl, ?_⟩
  refine Runs.bind (runs_freshNonce st _ e h) ?_
  refine Runs.modifyGet_bind ?_
  refine Runs.ofSock_bind _ e h hn hs ?_
  simp

/-- A directory opens; its stream never ends. -/
theorem runs_openFile_dir (act : Nat) {n name : Bytes} (buf : Bytes)
    (hl : (name ++ [0]).length ≤ PRE_EXT_FILE_NAME_LEN)
    (ho : st.fs.openRead E.cwd (E.user_dir ++ cstr name) = some ⟨[], true⟩) :
    ∃ (st' : FsOperator) (file : IStream) (evs : List (Ev Role)), file.Broken ∧
      Runs (E.openFile act (buf, received E.na.aead E.server_rx n (name ++ [0])))
        ⟨st, inp, e, h, []⟩ (.inr file) ⟨st', inp, e, h ++ evs, []⟩ := by
  let f := (IStream.ofSource ⟨[], true⟩).read STREAM_HEADERBYTES
  let f' := (f.2.read PWHASH_SALTBYTES).2
  have hf : f.2.Broken := (IStream.broken_ofSource.read (by decide)).2
  have hf' : f'.Broken := (hf.read (by decide)).2
  have hhead := runs_sendHead (E := E) { st with names := st.names ++ [cstr name] } inp e h act
    ⟨[], true⟩ (f := f.2) rfl (Prod.mk.eta (p := f.2.read PWHASH_SALTBYTES)).symm
  have hopen : ∀ w, Runs (E.sendHead act ⟨[], true⟩)
      ⟨{ st with names := st.names ++ [cstr name] }, inp, e, h, []⟩ f' w →
      Runs (E.openFile act (buf, received E.na.aead E.server_rx n (name ++ [0]))) ⟨st, inp, e, h, []⟩
        (.inr f') w := by
    intro w hw
    unfold openFile
    simp only [unwrap_received _ _ _ (name_short hl) hl, received_corrupted, Bool.false_eq_true, if_false,
      ne_eq, not_true_eq_false, cstr_blit_nul]
    refine Runs.modifyGet_bind ?_
    simp only [ho]
    exact Runs.bind hw ((runs_pure _ _ _ _).mpr ⟨rfl, rfl⟩)
  exact ⟨_, f', _, hf', hopen _ hhead⟩

/-- The sending loop on such a stream. -/
theorem steps_rffsLoop {α : Type} (act : Nat) (f : Int → Server α) (n j : Nat) {file : IStream}
    (hf : file.Broken) :
    ∃ m q o, n ≤ m ∧
      Party.Steps e m ⟨loop (E.rffsRound act) (j, file) >>= f, st, inp, h⟩ q o := by
  induction n generalizing st h j file with
  | zero => exact ⟨0, _, _, Nat.le_refl 0, Party.Steps.refl _⟩
  | succ n ih =>
    obtain ⟨hnil, hf'⟩ := hf.read file_chunk_size_pos
    have hround := runs_rffsRound (E := E) st inp e h act j file
    simp only [hf'.eofbit, Bool.false_eq_true, if_false] at hround
    obtain ⟨m1, hs1⟩ := Party.Steps.round f hround
    obtain ⟨m2, q, o, hm, hs2⟩ := ih _ _ (j + 1) hf'
    exact ⟨m1 + 1 + m2, q, _, by omega, hs1.trans hs2⟩

/-- A download of a regular file. -/
theorem runs_rffsHandlerServer (act : Nat) {n name : Bytes} (hn : n.length = 8)
    (hl : (name ++ [0]).length ≤ PRE_EXT_FILE_NAME_LEN) {c : Bytes}
    (ho : st.fs.openRead E.cwd (E.user_dir ++ cstr name) = some ⟨c, false⟩) :
    ∃ (st' : FsOperator) (nonce m1 m2 : Bytes), st'.fs = st.fs ∧
      st'.names = st.names ++ [cstr name] ∧
      Runs (E.rffsHandlerServer act)
        ⟨st, frame E.na.aead E.server_rx n (name ++ [0]) ++ rest, e, h, []⟩ 0
        ⟨st', rest, e, h ++ (frameRcvs E.na.aead ⟨act, .fileName⟩ E.server_rx n (name ++ [0]) ++
          fileEvs E.na.aead E.server_tx act nonce (sentHeader c m1) (sentSalt c m2)
            (sentChunks c)), []⟩ := by
  obtain ⟨n', m1, m2, hfile⟩ := runs_sendFile (E := E)
    { st with nonce := fit AEAD_NPUBBYTES (E.host.rand st.draws), draws := st.draws + 1,
              locals := st.locals + 1, names := st.names ++ [cstr name] } rest e
    (h ++ frameRcvs E.na.aead ⟨act, .fileName⟩ E.server_rx n (name ++ [0])) act c
  rw [List.append_assoc] at hfile
  refine ⟨{ st with nonce := n', draws := st.draws + 1, locals := st.locals + 3,
                    names := st.names ++ [cstr name] },
    fit AEAD_NPUBBYTES (E.host.rand st.draws), m1, m2, rfl, rfl, ?_⟩
  refine Runs.bind (runs_freshNonce st _ e h) ?_
  refine Runs.modifyGet_bind ?_
  refine Runs.ofSock_bind _ e h hn (name_short hl) ?_
  rw [unwrap_received _ _ _ (name_short hl) hl]
  simp only [received_corrupted, Bool.false_eq_true, if_false, ne_eq, not_true_eq_false, cstr_blit_nul]
  refine Runs.modifyGet_bind ?_
  simp only [ho]
  exact hfile

/-- A name frame that does not fit: nothing is sent. -/
theorem runs_rffs_longName (act : Nat) {n name : Bytes} (hn : n.length = 8)
    (hl : PRE_EXT_FILE_NAME_LEN < (name ++ [0]).length)
    (hs : (name ++ [0]).length ≤ FILE_ENCRYPTED_CHUNK_SIZE) :
    ∃ st' : FsOperator, st'.fs = st.fs ∧
      Runs (E.rffsHandlerServer act)
        ⟨st, frame E.na.aead E.server_rx n (name ++ [0]) ++ rest, e, h, []⟩ 2
        ⟨st', rest, e, h ++ frameRcvs E.na.aead ⟨act, .fileName⟩ E.server_rx n (name ++ [0]), []⟩ := by
  refine ⟨{ st with nonce := fit AEAD_NPUBBYTES (E.host.rand st.draws), draws := st.draws + 1,
                    locals := st.locals + 1 }, rfl, ?_⟩
  refine Runs.bind (runs_freshNonce st _ e h) ?_
  refine Runs.modifyGet_bind ?_
  refine Runs.ofSock_bind _ e h hn hs ?_
  rw [unwrap_received_too_long _ _ _ hs hl]
  simp

/-- A file that does not open: nothing is sent. -/
theorem runs_rffs_missing (act : Nat) {n name : Bytes} (hn : n.length = 8)
    (hl : (name ++ [0]).length ≤ PRE_EXT_FILE_NAME_LEN)
    (ho : st.fs.openRead E.cwd (E.user_dir ++ cstr name) = none) :
    ∃ st' : FsOperator, st'.fs = st.fs ∧
      Runs (E.rffsHandlerServer act)
        ⟨st, frame E.na.aead E.server_rx n (name ++ [0]) ++ rest, e, h, []⟩ 1
        ⟨st', rest, e, h ++ frameRcvs E.na.aead ⟨act, .fileName⟩ E.server_rx n (name ++ [0]), []⟩ := by
  refine ⟨{ st with nonce := fit AEAD_NPUBBYTES (E.host.rand st.draws), draws := st.draws + 1,
                    locals := st.locals + 1, names := st.names ++ [cstr name] }, rfl, ?_⟩
  refine Runs.bind (runs_freshNonce st _ e h) ?_
  refine Runs.modifyGet_bind ?_
  refine Runs.ofSock_bind _ e h hn (name_short hl) ?_
  rw [unwrap_received _ _ _ (name_short hl) hl]
  simp only [received_corrupted, Bool.false_eq_true, if_false, ne_eq, not_true_eq_false, cstr_blit_nul]
  refine Runs.modifyGet_bind ?_
  simp [ho]

/-! ## List and delete -/

theorem runs_sendNames (act d : Nat) (ns : List Name) (i : Nat) (hd : st.draws = d + i) :
    ∃ st' : FsOperator, st'.fs = st.fs ∧ st'.names = st.names ∧
      Runs (E.sendNames act i ns) ⟨st, inp, e, h, []⟩ ()
        ⟨st', inp, e, h ++ nameEvs E.na.aead E.server_tx act
          (fun i => sodiumIncrement (fit AEAD_NPUBBYTES (E.host.rand (d + i)))) i ns, []⟩ := by
  induction ns generalizing st h i with
  | nil => exact ⟨st, rfl, rfl, by simp [sendNames, nameEvs]⟩
  | cons n ns ih =>
    obtain ⟨st', h1, h2, h3⟩ := ih
      { st with nonce := sodiumIncrement (fit AEAD_NPUBBYTES (E.host.rand st.draws)),
                draws := st.draws + 1 }
      (h ++ [.snd ⟨act, .listName i⟩ (frame E.na.aead E.server_tx
        (sodiumIncrement (fit AEAD_NPUBBYTES (E.host.rand (d + i)))) (n ++ [0]))])
      (i + 1) (by simp [hd]; omega)
    refine ⟨st', h1, h2, ?_⟩
    refine Runs.bind (runs_freshNonce st inp e h) ?_
    refine Runs.bind (runs_sendSession _ inp e h _ _) ?_
    rw [List.append_assoc] at h3
    simpa [nameEvs, hd] using h3

theorem runs_lffsHandlerServer (act : Nat) {entries : List Name}
    (hl : st.fs.list E.cwd E.user_dir = .ok entries) :
    ∃ (st' : FsOperator) (n0 : Bytes) (nonce : Nat → Bytes), n0.length = 8 ∧
      (∀ i, (nonce i).length = 8) ∧ st'.fs = st.fs ∧ st'.names = st.names ∧
      Runs (E.lffsHandlerServer act) ⟨st, inp, e, h, []⟩ (.ok 0)
        ⟨st', inp, e, h ++ (.snd ⟨act, .listCount⟩
          (frame E.na.aead E.server_tx n0 (i32Enc entries.length)) ::
          nameEvs E.na.aead E.server_tx act nonce 0 entries), []⟩ := by
  let n0 : Bytes := sodiumIncrement (fit AEAD_NPUBBYTES (E.host.rand st.draws))
  obtain ⟨st', h1, h2, h3⟩ := runs_sendNames (E := E)
    { st with nonce := n0, draws := st.draws + 1 } inp e
    (h ++ [.snd ⟨act, .listCount⟩ (frame E.na.aead E.server_tx n0 (i32Enc entries.length))])
    act (st.draws + 1) entries 0 rfl
  refine ⟨st', n0, fun i => sodiumIncrement (fit AEAD_NPUBBYTES (E.host.rand (st.draws + 1 + i))),
    sodiumIncrement_length _, fun i => sodiumIncrement_length _, h1, h2, ?_⟩
  refine Runs.read_bind ?_
  simp only [hl]
  refine Runs.bind (runs_freshNonce st inp e h) ?_
  refine Runs.bind (runs_sendSession _ inp e h _ _) ?_
  refine Runs.read_bind ?_
  simp only [hl]
  refine Runs.bind h3 ?_
  simp

/-- The directory cannot be listed: the process ends. -/
theorem runs_lffs_threw (act : Nat) {er : Errno} (hl : st.fs.list E.cwd E.user_dir = .error er) :
    Runs (E.lffsHandlerServer act) ⟨st, inp, e, h, []⟩ (.error er) ⟨st, inp, e, h, []⟩ := by
  refine Runs.read_bind ?_
  simp [hl]

theorem runs_dffs_longName (act : Nat) {n name : Bytes} (hn : n.length = 8)
    (hl : PRE_EXT_FILE_NAME_LEN < (name ++ [0]).length)
    (hs : (name ++ [0]).length ≤ FILE_ENCRYPTED_CHUNK_SIZE) :
    ∃ st' : FsOperator, st'.fs = st.fs ∧
      Runs (E.dffsHandlerServer act)
        ⟨st, frame E.na.aead E.server_rx n (name ++ [0]) ++ rest, e, h, []⟩ (.ok 1)
        ⟨st', rest, e, h ++ frameRcvs E.na.aead ⟨act, .fileName⟩ E.server_rx n (name ++ [0]), []⟩ := by
  refine ⟨{ st with nonce := fit AEAD_NPUBBYTES (E.host.rand st.draws), draws := st.draws + 1 },
    rfl, ?_⟩
  refine Runs.bind (runs_freshNonce st _ e h) ?_
  refine Runs.ofSock_bind _ e h hn hs ?_
  rw [unwrap_received_too_long _ _ _ hs hl]
  simp

/-- `remove` throws: the process ends. -/
theorem runs_dffs_threw (act : Nat) {n name : Bytes} (hn : n.length = 8)
    (hl : (name ++ [0]).length ≤ PRE_EXT_FILE_NAME_LEN) {er : Errno}
    (hr : st.fs.remove E.cwd (E.user_dir ++ cstr name) = .error er) :
    ∃ st' : FsOperator, st'.fs = st.fs ∧
      Runs (E.dffsHandlerServer act)
        ⟨st, frame E.na.aead E.server_rx n (name ++ [0]) ++ rest, e, h, []⟩ (.error er)
        ⟨st', rest, e, h ++ frameRcvs E.na.aead ⟨act, .fileName⟩ E.server_rx n (name ++ [0]), []⟩ := by
  refine ⟨{ st with nonce := fit AEAD_NPUBBYTES (E.host.rand st.draws), draws := st.draws + 1,
                    names := st.names ++ [cstr name] }, rfl, ?_⟩
  refine Runs.bind (runs_freshNonce st _ e h) ?_
  refine Runs.ofSock_bind _ e h hn (name_short hl) ?_
  rw [unwrap_received _ _ _ (name_short hl) hl]
  simp only [received_corrupted, Bool.false_eq_true, if_false, ne_eq, not_true_eq_false, cstr_blit_nul]
  refine Runs.modifyGet_bind ?_
  simp [hr]

theorem runs_dffsHandlerServer (act : Nat) {n name : Bytes} (hn : n.length = 8)
    (hl : (name ++ [0]).length ≤ PRE_EXT_FILE_NAME_LEN) {removed : Bool} {fs : FS}
    (hr : st.fs.remove E.cwd (E.user_dir ++ cstr name) = .ok (removed, fs)) :
    ∃ (st' : FsOperator) (n' : Bytes), n'.length = 8 ∧ st'.fs = fs ∧
      Runs (E.dffsHandlerServer act)
        ⟨st, frame E.na.aead E.server_rx n (name ++ [0]) ++ rest, e, h, []⟩ (.ok 0)
        ⟨st', rest, e, h ++ (frameRcvs E.na.aead ⟨act, .fileName⟩ E.server_rx n (name ++ [0]) ++
          [.snd ⟨act, .deleteResult⟩ (frame E.na.aead E.server_tx n'
            (i32Enc (if removed then ACK_SUC else ACK_FAIL)))]), []⟩ := by
  let n' : Bytes := sodiumIncrement (fit AEAD_NPUBBYTES (E.host.rand (st.draws + 1)))
  refine ⟨{ st with fs := fs, nonce := n', draws := st.draws + 2, names := st.names ++ [cstr name] },
    n', sodiumIncrement_length _, rfl, ?_⟩
  refine Runs.bind (runs_freshNonce st _ e h) ?_
  refine Runs.ofSock_bind _ e h hn (name_short hl) ?_
  rw [unwrap_received _ _ _ (name_short hl) hl]
  simp only [received_corrupted, Bool.false_eq_true, if_false, ne_eq, not_true_eq_false, cstr_blit_nul]
  refine Runs.modifyGet_bind ?_
  simp only [hr]
  refine Runs.bind (runs_freshNonce _ _ e _) ?_
  refine Runs.bind (runs_sendSession _ _ e _ _ _) ?_
  simp [n']

/-! ## Rounds -/

variable (E) in
/-- The notice and the intent, as they are read. -/
def requestRcvs (act : Nat) (n1 n2 : Bytes) (intention : Int) : List (Ev Role) :=
  frameRcvs E.na.aead ⟨act, .notice⟩ E.server_rx n1 (i32Enc NEW_ACTION) ++
    frameRcvs E.na.aead ⟨act, .intent⟩ E.server_rx n2 (i32Enc intention)

/-- How a round ends, by what its handler did. -/
def roundEnd (act : Nat) : Except Errno Unit → Nat ⊕ Ended
  | .error er => .inr (.threw er)
  | .ok () => .inl (act + 1)

variable (E) in
/-- A round behind `read_intent`. -/
def afterIntent (act : Nat) (intent : Int) : Server (Nat ⊕ Ended) := do
  if intent = INVALID_READ_INTENT then return .inl (act + 1)
  else
    match ← E.dispatch act intent with
    | .error e => return .inr (.threw e)
    | .ok () => return .inl (act + 1)

variable (E) in
/-- A round behind `receive_notice_of_new_action`. -/
def afterNotice (act : Nat) (notice : Int) : Server (Nat ⊕ Ended) := do
  if notice ≠ 0 then return .inr .closed
  else
    let intent ← E.readIntent act
    E.afterIntent act intent

theorem serveRound_eq (act : Nat) :
    E.serveRound act = E.receiveNoticeOfNewAction act >>= E.afterNotice act := rfl

variable (E) in
/-- What a session does behind `create_directories`. -/
def afterMake : Except Errno Unit → Server Ended
  | .error e => pure (.threw e)
  | .ok () => E.freshNonce >>= fun _ => E.serve

variable (E) in
/-- What the server does from the handler of a round on. -/
def handle (act : Nat) (intent : Int) : Server Ended :=
  E.dispatch act intent >>= fun x => again E.serveRound (roundEnd act x)

theorem steps_notice (act : Nat) {n : Bytes} (hn : n.length = 8) {v : Int} (lo : -2 ^ 31 ≤ v)
    (hi : v < 2 ^ 31) :
    ∃ m, Party.Steps e m
      ⟨loop E.serveRound act, st, frame E.na.aead E.server_rx n (i32Enc v) ++ rest, h⟩
      ⟨E.afterNotice act (if v = NEW_ACTION then 0 else 1) >>= again E.serveRound,
        { st with locals := st.locals + 1 }, rest,
        h ++ frameRcvs E.na.aead ⟨act, .notice⟩ E.server_rx n (i32Enc v)⟩ [] := by
  have h0 := Party.step_loop E.serveRound pure act st
    (frame E.na.aead E.server_rx n (i32Enc v) ++ rest) h e
  simp only [bind_pure, serveRound_eq, LawfulMonad.bind_assoc] at h0
  obtain ⟨m, hs⟩ := Party.Steps.ofRuns (fun r => E.afterNotice act r >>= again E.serveRound)
    (runs_receiveNotice (E := E) st rest e h act hn lo hi)
  exact ⟨m + 1, by simpa using Party.Steps.head h0 hs⟩

/-- A round that finds a notice and an intent goes on with the handler. -/
theorem steps_request (act : Nat) {n1 n2 : Bytes} (h1 : n1.length = 8) (h2 : n2.length = 8) {v : Int}
    (lo : -2 ^ 31 ≤ v) (hi : v < 2 ^ 31) (hv : v ≠ INVALID_READ_INTENT) :
    ∃ n, Party.Steps e n
      ⟨loop E.serveRound act, st, frame E.na.aead E.server_rx n1 (i32Enc NEW_ACTION) ++
        (frame E.na.aead E.server_rx n2 (i32Enc v) ++ rest), h⟩
      ⟨E.handle act v, { st with locals := st.locals + 2 }, rest, h ++ E.requestRcvs act n1 n2 v⟩ [] := by
  obtain ⟨n, hs⟩ := steps_notice (E := E) st (frame E.na.aead E.server_rx n2 (i32Enc v) ++ rest) e h act h1
    (v := NEW_ACTION) (by decide) (by decide)
  have hnext : E.afterNotice act (if NEW_ACTION = NEW_ACTION then 0 else 1) >>= again E.serveRound =
      E.readIntent act >>= fun v => E.afterIntent act v >>= again E.serveRound := by
    simp [afterNotice]
  have hhandle : E.afterIntent act v >>= again E.serveRound = E.handle act v := by
    simp only [afterIntent, handle, hv, if_false, LawfulMonad.bind_assoc]
    refine congrArg (E.dispatch act v >>= ·) (funext fun x => ?_)
    cases x <;> rfl
  rw [hnext] at hs
  obtain ⟨m, hs'⟩ := Party.Steps.ofRuns (fun v => E.afterIntent act v >>= again E.serveRound)
    (runs_readIntent (E := E) { st with locals := st.locals + 1 } rest e
      (h ++ frameRcvs E.na.aead ⟨act, .notice⟩ E.server_rx n1 (i32Enc NEW_ACTION)) act h2 lo hi)
  rw [hhandle] at hs'
  refine ⟨n + m, ?_⟩
  simpa [requestRcvs] using hs.trans hs'

/-- A notice of another value closes the connection. -/
theorem runs_serveRound_closed (act : Nat) {n : Bytes} (hn : n.length = 8) {v : Int} (lo : -2 ^ 31 ≤ v)
    (hi : v < 2 ^ 31) (hv : v ≠ NEW_ACTION) :
    Runs (E.serveRound act) ⟨st, frame E.na.aead E.server_rx n (i32Enc v) ++ rest, e, h, []⟩
      (.inr .closed)
      ⟨{ st with locals := st.locals + 1 }, rest, e,
        h ++ frameRcvs E.na.aead ⟨act, .notice⟩ E.server_rx n (i32Enc v), []⟩ := by
  refine Runs.bind (runs_receiveNotice st _ e h act hn lo hi) ?_
  simp [hv]

/-- So does a frame too long for a notice. -/
theorem runs_serveRound_tooLong (act : Nat) {n m : Bytes} (hn : n.length = 8)
    (hm : m.length ≤ FILE_ENCRYPTED_CHUNK_SIZE) (h4 : 4 < m.length) :
    Runs (E.serveRound act) ⟨st, frame E.na.aead E.server_rx n m ++ rest, e, h, []⟩ (.inr .closed)
      ⟨{ st with locals := st.locals + 1 }, rest, e,
        h ++ frameRcvs E.na.aead ⟨act, .notice⟩ E.server_rx n m, []⟩ := by
  have hnotice : Runs (E.receiveNoticeOfNewAction act)
      ⟨st, frame E.na.aead E.server_rx n m ++ rest, e, h, []⟩ 2
      ⟨{ st with locals := st.locals + 1 }, rest, e,
        h ++ frameRcvs E.na.aead ⟨act, .notice⟩ E.server_rx n m, []⟩ := by
    refine Runs.modifyGet_bind ?_
    refine Runs.ofSock_bind _ e h hn hm ?_
    rw [unwrap_received_too_long _ _ _ hm h4]
    simp
  refine Runs.bind hnotice ?_
  simp

theorem dispatch_read (act : Nat) :
    E.dispatch act READ_FROM_FILESYSTEM = E.rffsHandlerServer act >>= fun _ => pure (.ok ()) := by
  simp [dispatch]

theorem dispatch_write (act : Nat) :
    E.dispatch act WRITE_TO_FILESYSTEM = E.wtfsHandlerServer act >>= fun _ => pure (.ok ()) := by
  simp [dispatch, WRITE_TO_FILESYSTEM, READ_FROM_FILESYSTEM]

theorem dispatch_list (act : Nat) :
    E.dispatch act LIST_FILES = E.lffsHandlerServer act >>= fun x => pure (x.map fun _ => ()) := by
  simp [dispatch, WRITE_TO_FILESYSTEM, READ_FROM_FILESYSTEM, LIST_FILES]

theorem dispatch_delete (act : Nat) :
    E.dispatch act DELETE_FILE = E.dffsHandlerServer act >>= fun x => pure (x.map fun _ => ()) := by
  simp [dispatch, WRITE_TO_FILESYSTEM, READ_FROM_FILESYSTEM, LIST_FILES, DELETE_FILE]

end ServerEnv

end Mefsc.L3
