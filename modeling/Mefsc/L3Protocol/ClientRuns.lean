import Mefsc.L3Protocol.Client
import Mefsc.L3Protocol.ServerRuns

/-!
# What the client's handlers do with an honest server's frames

The counterpart of `ServerRuns`: the events of each handler, and what becomes
of the client's files and of what it shows.
-/
namespace Mefsc.L3

open L1 L1.SessionEncWrapper L2
open Proc hiding ret recv send act iter bind

/-- The client's files and output are as before. -/
structure ClientState.Same (s s' : ClientState) : Prop where
  fs : s'.fs = s.fs
  shown : s'.shown = s.shown

namespace ClientState

theorem Same.trans {s t u : ClientState} (h1 : s.Same t) (h2 : t.Same u) : s.Same u :=
  ⟨h2.fs.trans h1.fs, h2.shown.trans h1.shown⟩

end ClientState

namespace ClientEnv

variable {C : ClientEnv} (st : ClientState) (inp rest : Bytes) (e : Bool) (h : List (Ev Role))

theorem runs_sendSession (r : Role) (m : Bytes) :
    Runs (C.sendSession r m) ⟨st, inp, e, h, []⟩ ()
      ⟨{ st with original_nonce := sodiumIncrement st.original_nonce }, inp, e,
        h ++ [.snd r (frame C.na.aead C.client_tx (sodiumIncrement st.original_nonce) m)], []⟩ := by
  refine Runs.read_bind ?_
  refine Runs.bind (runs_sendFrame st e h _ r inp m _ _) ?_
  simp

/-! ## Upload -/

/-- A fresh salt, and its key unless `crypto_pwhash` runs out of memory. -/
theorem runs_setCrypto (SA : SenderAgent) :
    ∃ (st' : ClientState) (key salt : Bytes), st.Same st' ∧ st'.hashes = st.hashes + 1 ∧
      salt.length = PWHASH_SALTBYTES ∧
      (C.host.oom st.hashes = false → key = C.na.pwhash C.password salt) ∧
      Runs (C.setCrypto SA) ⟨st, inp, e, h, []⟩ ⟨SA.nonce, key, salt⟩ ⟨st', inp, e, h, []⟩ := by
  let salt := fit PWHASH_SALTBYTES (C.host.rand st.draws)
  let st' : ClientState := { st with draws := st.draws + 1, hashes := st.hashes + 1 }
  by_cases ho : C.host.oom st.hashes
  · refine ⟨st', List.replicate BOX_SEEDBYTES 0, salt, ⟨rfl, rfl⟩, rfl, fit_length _ _, by simp [ho], ?_⟩
    refine Runs.modifyGet_bind ?_
    refine Runs.modifyGet_bind ?_
    simp [ho, st', salt]
  · refine ⟨st', C.na.pwhash C.password salt, salt, ⟨rfl, rfl⟩, rfl, fit_length _ _, fun _ => rfl, ?_⟩
    refine Runs.modifyGet_bind ?_
    refine Runs.modifyGet_bind ?_
    simp [ho, st', salt]

theorem runs_newSenderAgent :
    ∃ (st' : ClientState) (SA : SenderAgent), st.Same st' ∧ st'.hashes = st.hashes + 1 ∧
      Runs C.newSenderAgent ⟨st, inp, e, h, []⟩ SA ⟨st', inp, e, h, []⟩ := by
  obtain ⟨st', key, salt, hs, hh, -, -, hr⟩ := runs_setCrypto (C := C)
    { st with draws := st.draws + 1 } inp e h ⟨fit AEAD_NPUBBYTES (C.host.rand st.draws), [], []⟩
  exact ⟨st', _, ⟨hs.fs, hs.shown⟩, hh, Runs.modifyGet_bind hr⟩

theorem runs_newReceiverAgent :
    ∃ (st' : ClientState) (RA : ReceiverAgent), st.Same st' ∧ st'.hashes = st.hashes ∧
      Runs C.newReceiverAgent ⟨st, inp, e, h, []⟩ RA ⟨st', inp, e, h, []⟩ := by
  refine ⟨{ st with draws := st.draws + 1 }, ⟨fit AEAD_NPUBBYTES (C.host.rand st.draws)⟩, ⟨rfl, rfl⟩,
    rfl, Runs.modifyGet_bind ?_⟩
  simp

theorem runs_initSend (act : Nat) (SA : SenderAgent) (src : Source) (file_name header : Bytes) :
    Runs (C.initSend act SA (some src) file_name header) ⟨st, inp, e, h, []⟩
      (0, sodiumIncrement (sodiumIncrement (sodiumIncrement (sodiumIncrement SA.nonce))))
      ⟨st, inp, e, h ++ initEvs C.na.aead C.client_tx act SA.nonce file_name header SA.salt, []⟩ := by
  refine Runs.bind (runs_sendFrame st e h _ _ inp _ _ _) ?_
  refine Runs.bind (runs_sendFrame st e _ _ _ inp _ _ _) ?_
  refine Runs.bind (runs_sendFrame st e _ _ _ inp _ _ _) ?_
  refine Runs.bind (runs_sendFrame st e _ _ _ inp _ _ _) ?_
  simp [initEvs]

theorem runs_sendRound (act : Nat) (j : Nat) (file : IStream) (state : C.na.ss.State) (nonce : Bytes)
    {file_chunk : Bytes} {file' : IStream} (hf : file.read CHUNK_SIZE = (file_chunk, file')) :
    Runs (C.sendRound act (j, file, state, nonce)) ⟨st, inp, e, h, []⟩
      (if file'.eofbit then .inr (sodiumIncrement nonce)
        else .inl (j + 1, file', (C.na.ss.push state file_chunk
          (if file'.eofbit then TAG_FINAL else 0)).1, sodiumIncrement nonce))
      ⟨st, inp, e, h ++ (.snd ⟨act, .chunkPrefix j⟩ (frame C.na.aead C.client_tx (sodiumIncrement nonce)
        (i32Enc (if file'.eofbit then END_CHUNK else MEAT_CHUNK))) ::
          blobEvs ⟨act, .chunk j⟩ (C.na.ss.push state file_chunk
            (if file'.eofbit then TAG_FINAL else 0)).2), []⟩ := by
  simp only [sendRound, hf]
  refine Runs.bind (runs_sendFrame st e h _ _ inp _ _ _) ?_
  refine Runs.bind (runs_sendRawBlob st e _ _ inp _) ?_
  cases file'.eofbit <;> simp [TAG_FINAL]

/-- The sending loop pushes the blocks of the file. -/
theorem runs_sendLoop (act : Nat) (b : Bytes) (j : Nat) (state : C.na.ss.State) (nonce : Bytes) :
    ∃ n, Runs (loop (C.sendRound act) (j, IStream.fresh b, state, nonce)) ⟨st, inp, e, h, []⟩ n
      ⟨st, inp, e, h ++ chunkEvs C.na.aead C.client_tx act nonce j
        (marked (pushAll C.na.ss state (cut CHUNK_SIZE b))), []⟩ := by
  induction b using cut_induct chunk_size_pos generalizing h j state nonce with
  | short b hb =>
    refine ⟨sodiumIncrement nonce, ?_⟩
    rw [runs_loop]
    refine ⟨_, _, runs_sendRound st inp e h act j _ state nonce (IStream.read_short hb), ?_⟩
    simp [cut_short chunk_size_pos hb, pushAll, marked, chunkEvs]
  | long b hb ih =>
    obtain ⟨n, hr⟩ := ih
      (h ++ (.snd ⟨act, .chunkPrefix j⟩ (frame C.na.aead C.client_tx (sodiumIncrement nonce)
        (i32Enc MEAT_CHUNK)) ::
          blobEvs ⟨act, .chunk j⟩ (C.na.ss.push state (b.take CHUNK_SIZE) 0).2)) (j + 1)
      (C.na.ss.push state (b.take CHUNK_SIZE) 0).1 (sodiumIncrement nonce)
    refine ⟨n, ?_⟩
    rw [runs_loop]
    refine ⟨_, _, runs_sendRound st inp e h act j _ state nonce (IStream.read_full hb), ?_⟩
    rw [cut_long chunk_size_pos hb]
    obtain ⟨c, cs, hc⟩ := List.exists_cons_of_ne_nil (cut_ne_nil chunk_size_pos (b.drop CHUNK_SIZE))
    rw [hc] at hr ⊢
    simp only [IStream.fresh_eofbit, Bool.false_eq_true, if_false]
    rw [pushAll]
    obtain ⟨d, ds, hd⟩ : ∃ d ds, pushAll C.na.ss (C.na.ss.push state (b.take CHUNK_SIZE) 0).1 (c :: cs) =
        d :: ds := by
      cases cs <;> exact ⟨_, _, rfl⟩
    rw [hd] at hr ⊢
    simpa [marked, chunkEvs] using hr

/-- An upload of a regular file. -/
theorem runs_upload (act : Nat) (SA : SenderAgent) {file_name c : Bytes}
    (ho : st.fs.openRead C.cwd file_name = some ⟨c, false⟩) :
    ∃ (st' : ClientState) (nonce r key salt : Bytes), st.Same st' ∧ salt.length = PWHASH_SALTBYTES ∧
      (C.host.oom st.hashes = false → key = C.na.pwhash C.password salt) ∧
      Runs (C.encryptAndSendToServer act SA file_name) ⟨st, inp, e, h, []⟩ 0
        ⟨st', inp, e, h ++ (initEvs C.na.aead C.client_tx act SA.nonce file_name
            (C.na.ss.initPush r key).2 salt ++
          chunkEvs C.na.aead C.client_tx act nonce 0
            (marked (pushAll C.na.ss (C.na.ss.initPush r key).1 (cut CHUNK_SIZE c)))), []⟩ := by
  obtain ⟨st1, key, salt, hs, -, hl, hk, hr⟩ := runs_setCrypto (C := C) st inp e h SA
  let r := fit STREAM_HEADERBYTES (C.host.rand st1.draws)
  let n4 := sodiumIncrement (sodiumIncrement (sodiumIncrement (sodiumIncrement SA.nonce)))
  obtain ⟨n, hloop⟩ := runs_sendLoop (C := C) { st1 with draws := st1.draws + 1 } inp e
    (h ++ initEvs C.na.aead C.client_tx act SA.nonce file_name (C.na.ss.initPush r key).2 salt) act c 0
    (C.na.ss.initPush r key).1 n4
  refine ⟨{ st1 with draws := st1.draws + 1 }, n4, r, key, salt, ⟨hs.fs, hs.shown⟩, hl, hk, ?_⟩
  refine Runs.bind hr ?_
  refine Runs.read_bind ?_
  rw [← hs.fs] at ho
  rw [ho]
  refine Runs.modifyGet_bind ?_
  refine Runs.bind (runs_initSend _ inp e h act _ _ file_name _) ?_
  refine Runs.bind hloop ?_
  simp

/-- An upload of a file the client does not have. -/
theorem runs_upload_missing (act : Nat) (SA : SenderAgent) {file_name : Bytes}
    (ho : st.fs.openRead C.cwd file_name = none) :
    ∃ st' : ClientState, st.Same st' ∧
      Runs (C.encryptAndSendToServer act SA file_name) ⟨st, inp, e, h, []⟩ 1
        ⟨st', inp, e, h ++ [.snd ⟨act, .fileExists⟩
          (frame C.na.aead C.client_tx (sodiumIncrement SA.nonce) [0])], []⟩ := by
  obtain ⟨st1, key, salt, hs, -, hl, hk, hr⟩ := runs_setCrypto (C := C) st inp e h SA
  refine ⟨{ st1 with draws := st1.draws + 1 }, ⟨hs.fs, hs.shown⟩, ?_⟩
  refine Runs.bind hr ?_
  refine Runs.read_bind ?_
  rw [← hs.fs] at ho
  rw [ho]
  refine Runs.modifyGet_bind ?_
  refine Runs.bind (Runs.bind (runs_sendFrame _ e h _ _ inp _ _ _)
    ((runs_pure _ _ _ _).mpr ⟨rfl, rfl⟩)) ?_
  simp

/-! ### A source without an end -/

variable (C) in
/-- An upload up to its loop: the status, or where the loop starts. -/
def initUpload (act : Nat) (SA : SenderAgent) (file_name : Bytes) : Client (Int ⊕ C.Sending) := do
  let SA ← C.setCrypto SA
  let file ← C.openIn file_name
  let r ← C.randombytes STREAM_HEADERBYTES
  let (state, header) := C.na.ss.initPush r SA.key
  let (status, nonce) ← C.initSend act SA file file_name header
  match file with
  | none => return .inl status
  | some src => return .inr (0, IStream.ofSource src, state, nonce)

variable (C) in
def sendAll (act : Nat) : Int ⊕ C.Sending → Client Int
  | .inl status => pure status
  | .inr g => loop (C.sendRound act) g >>= fun _ => pure 0

theorem encryptAndSendToServer_eq (act : Nat) (SA : SenderAgent) (file_name : Bytes) :
    C.encryptAndSendToServer act SA file_name = C.initUpload act SA file_name >>= C.sendAll act := by
  simp only [encryptAndSendToServer, initUpload, LawfulMonad.bind_assoc]
  refine congrArg (C.setCrypto SA >>= ·) (funext fun SA => ?_)
  refine congrArg (C.openIn file_name >>= ·) (funext fun file => ?_)
  cases file <;> simp [sendAll]

/-- Whatever opens, four frames go out before the loop. -/
theorem runs_initUpload (act : Nat) (SA : SenderAgent) {file_name : Bytes} {src : Source}
    (ho : st.fs.openRead C.cwd file_name = some src) :
    ∃ (st' : ClientState) (state : C.na.ss.State) (nonce header salt : Bytes), st.Same st' ∧
      header.length = STREAM_HEADERBYTES ∧ salt.length = PWHASH_SALTBYTES ∧
      Runs (C.initUpload act SA file_name) ⟨st, inp, e, h, []⟩ (.inr (0, IStream.ofSource src, state, nonce))
        ⟨st', inp, e, h ++ initEvs C.na.aead C.client_tx act SA.nonce file_name header salt, []⟩ := by
  obtain ⟨st1, key, salt, hs, -, hl, -, hr⟩ := runs_setCrypto (C := C) st inp e h SA
  let r := fit STREAM_HEADERBYTES (C.host.rand st1.draws)
  refine ⟨{ st1 with draws := st1.draws + 1 }, (C.na.ss.initPush r key).1,
    sodiumIncrement (sodiumIncrement (sodiumIncrement (sodiumIncrement SA.nonce))),
    (C.na.ss.initPush r key).2, salt, ⟨hs.fs, hs.shown⟩, C.na.ss.header_length r key, hl, ?_⟩
  refine Runs.bind hr ?_
  refine Runs.read_bind ?_
  rw [← hs.fs] at ho
  rw [ho]
  refine Runs.modifyGet_bind ?_
  refine Runs.bind (runs_initSend _ inp e h act _ _ file_name _) ?_
  simp [r]

/-- The loop on such a source: any number of rounds, all of them `MEAT_CHUNK`. -/
theorem steps_sendLoop {α : Type} (act : Nat) (f : Bytes → Client α) (n j : Nat) {file : IStream}
    (hf : file.Broken) (state : C.na.ss.State) (nonce : Bytes) :
    ∃ (m : Nat) (cs : List (Int × Bytes)) (g : C.Sending), n ≤ m ∧ cs.length = n ∧
      (∀ c ∈ cs, c.1 = MEAT_CHUNK ∧ c.2.length ≤ FILE_ENCRYPTED_CHUNK_SIZE) ∧
      Party.Steps e m ⟨loop (C.sendRound act) (j, file, state, nonce) >>= f, st, inp, h⟩
        ⟨loop (C.sendRound act) g >>= f, st, inp, h ++ chunkEvs C.na.aead C.client_tx act nonce j cs⟩
        (sent (chunkEvs C.na.aead C.client_tx act nonce j cs)) := by
  induction n generalizing j file state nonce h with
  | zero =>
    exact ⟨0, [], _, Nat.le_refl 0, rfl, by simp, by simpa [chunkEvs, sent] using Party.Steps.refl _⟩
  | succ n ih =>
    obtain ⟨hnil, hf'⟩ := hf.read chunk_size_pos
    let c := (C.na.ss.push state [] 0).2
    have hc : c.length ≤ FILE_ENCRYPTED_CHUNK_SIZE := by
      rw [C.na.ss.push_length]
      decide
    have hread : file.read CHUNK_SIZE = ([], (file.read CHUNK_SIZE).2) := Prod.ext hnil rfl
    have hround := runs_sendRound (C := C) st inp e h act j file state nonce hread
    simp only [hf'.eofbit, Bool.false_eq_true, if_false] at hround
    obtain ⟨m1, hs1⟩ := Party.Steps.round f hround
    obtain ⟨m2, cs, g, hm, hlen, hcs, hs2⟩ := ih
      (h ++ (.snd ⟨act, .chunkPrefix j⟩ (frame C.na.aead C.client_tx (sodiumIncrement nonce)
        (i32Enc MEAT_CHUNK)) :: blobEvs ⟨act, .chunk j⟩ c)) (j + 1) hf' (C.na.ss.push state [] 0).1
      (sodiumIncrement nonce)
    refine ⟨m1 + 1 + m2, (MEAT_CHUNK, c) :: cs, g, by omega, by simp [hlen], ?_, ?_⟩
    · intro x hx
      rcases List.mem_cons.mp hx with rfl | hx
      · exact ⟨rfl, hc⟩
      · exact hcs x hx
    · simpa [chunkEvs, sent, again] using hs1.trans hs2

/-! ## Download -/

theorem runs_initRead (act : Nat) {n1 n2 : Bytes} (hn1 : n1.length = 8) (hn2 : n2.length = 8)
    {header salt : Bytes} (hh : header.length = STREAM_HEADERBYTES)
    (hs : salt.length = PWHASH_SALTBYTES) {hbuf sbuf : Bytes}
    (hhb : hbuf.length = STREAM_HEADERBYTES) (hsb : sbuf.length = PWHASH_SALTBYTES) :
    Runs (C.initRead act hbuf sbuf)
      ⟨st, frame C.na.aead C.client_rx n1 header ++ (frame C.na.aead C.client_rx n2 salt ++ rest), e, h,
        []⟩ (.ok (header, salt))
      ⟨st, rest, e, h ++ (frameRcvs C.na.aead ⟨act, .header⟩ C.client_rx n1 header ++
        frameRcvs C.na.aead ⟨act, .salt⟩ C.client_rx n2 salt), []⟩ := by
  have h24 : header.length ≤ FILE_ENCRYPTED_CHUNK_SIZE := by rw [hh]; decide
  have h16 : salt.length ≤ FILE_ENCRYPTED_CHUNK_SIZE := by rw [hs]; decide
  have hhead : blit header hbuf = header := blit_eq_of_length (by omega)
  have hsalt : blit salt sbuf = salt := blit_eq_of_length (by omega)
  refine Runs.ofSock_bind _ e h hn1 h24 ?_
  rw [unwrap_received _ _ _ h24 hh.le, hhead]
  simp only [ne_eq, not_true_eq_false, if_false]
  refine Runs.ofSock_bind _ e _ hn2 h16 ?_
  rw [unwrap_received _ _ _ h16 hs.le, hsalt]
  simp

/-- One round on a frame and a blob of the server's. -/
theorem runs_pullRound (act j : Nat) (p : Int) (state : C.na.ss.State) (pub : List (Bytes × Bytes)) {n : Bytes}
    (hn : n.length = 8) {v : Int} (lo : -2 ^ 31 ≤ v) (hi : v < 2 ^ 31) {b : Bytes}
    (hb : b.length ≤ FILE_ENCRYPTED_CHUNK_SIZE) :
    Runs (C.pullRound act (j, p, state, pub))
      ⟨st, frame C.na.aead C.client_rx n (i32Enc v) ++ (blob b ++ rest), e, h, []⟩
      (match C.na.ss.pull state b with
        | none => .inr (2, pub)
        | some (state, slot, _) =>
          if v ≠ END_CHUNK then .inl (j + 1, v, state, pub ++ [(b, slot)])
          else .inr (0, pub ++ [(b, slot)]))
      ⟨st, rest, e, h ++ (frameRcvs C.na.aead ⟨act, .chunkPrefix j⟩ C.client_rx n (i32Enc v) ++
        blobRcvs ⟨act, .chunk j⟩ b), []⟩ := by
  refine Runs.ofSock_bind _ e h hn (i32_short v) ?_
  obtain ⟨h0, hv⟩ := unwrap_received_i32 C.na.aead C.client_rx n lo hi (i32Enc_length p) 0
  simp only [hv]
  refine Runs.bind (runs_recvRawBlob st e _ _ hb (Nat.lt_of_le_of_lt hb (by decide)) rest) ?_
  cases hp : C.na.ss.pull state b with
  | none => simp [hp]
  | some x => by_cases h1 : v = END_CHUNK <;> simp [hp, h1]

/-- What the pulling loop makes of the chunks of a whole file: the return
value, the chunks it publishes (ciphertext and plaintext) and how many it takes
off the wire. -/
def pulled (S : SecretStream) (s : S.State) : List Bytes → Int × List (Bytes × Bytes) × Nat
  | [] => (0, [], 0)
  | c :: cs =>
    match S.pull s c with
    | none => (2, [], 1)
    | some (s, m, _) =>
      let x := pulled S s cs
      (x.1, (c, m) :: x.2.1, x.2.2 + 1)

/-- The pulling loop on the chunks of a whole file. When it takes them all it
has read exactly their bytes. -/
theorem runs_pullLoop (act : Nat) {cs : List Bytes} (hne : cs ≠ [])
    (hb : ∀ c ∈ cs, c.length ≤ FILE_ENCRYPTED_CHUNK_SIZE) (nonce : Bytes) (j : Nat) (p : Int)
    (state : C.na.ss.State) (pub : List (Bytes × Bytes)) :
    ∃ evs rest', Runs (loop (C.pullRound act) (j, p, state, pub))
        ⟨st, sent (chunkEvs C.na.aead C.client_rx act nonce j (marked cs)) ++ rest, e, h, []⟩
        ((pulled C.na.ss state cs).1, pub ++ (pulled C.na.ss state cs).2.1)
        ⟨st, rest', e, h ++ evs, []⟩ ∧
      ((pulled C.na.ss state cs).2.2 = cs.length →
        rest' = rest ∧ evs = chunkRcvs C.na.aead C.client_rx act nonce j (marked cs)) := by
  induction cs generalizing nonce j p state pub h with
  | nil => exact absurd rfl hne
  | cons c cs ih =>
    have hc := hb c List.mem_cons_self
    cases cs with
    | nil =>
      refine ⟨chunkRcvs C.na.aead C.client_rx act nonce j (marked [c]), rest, ?_, fun _ => ⟨rfl, rfl⟩⟩
      rw [runs_loop]
      simp only [marked, sent_chunkEvs_cons, List.append_assoc]
      refine ⟨_, _, runs_pullRound st _ e h act j p state pub (by simp) (by decide) (by decide) hc, ?_⟩
      cases hp : C.na.ss.pull state c <;> simp [pulled, hp, chunkEvs, chunkRcvs, sent]
    | cons c' cs =>
      let evs1 : List (Ev Role) := frameRcvs C.na.aead ⟨act, .chunkPrefix j⟩ C.client_rx (sodiumIncrement nonce)
        (i32Enc MEAT_CHUNK) ++ blobRcvs ⟨act, .chunk j⟩ c
      have hround := runs_pullRound (C := C) st
        (sent (chunkEvs C.na.aead C.client_rx act (sodiumIncrement nonce) (j + 1) (marked (c' :: cs))) ++
          rest) e h act j p state pub (sodiumIncrement_length nonce) (v := MEAT_CHUNK) (by decide)
        (by decide) hc
      simp only [marked, sent_chunkEvs_cons, List.append_assoc]
      cases hp : C.na.ss.pull state c with
      | none =>
        refine ⟨evs1, sent (chunkEvs C.na.aead C.client_rx act (sodiumIncrement nonce) (j + 1)
          (marked (c' :: cs))) ++ rest, ?_, by simp [pulled, hp]⟩
        rw [runs_loop]
        refine ⟨_, _, hround, ?_⟩
        simp [hp, pulled, evs1]
      | some x =>
        obtain ⟨state', m, t⟩ := x
        obtain ⟨evs, rest', hr, hall⟩ := ih (h ++ evs1) (by simp)
          (fun x hx => hb x (List.mem_cons_of_mem _ hx)) (sodiumIncrement nonce) (j + 1) MEAT_CHUNK
          state' (pub ++ [(c, m)])
        refine ⟨evs1 ++ evs, rest', ?_, ?_⟩
        · rw [runs_loop]
          refine ⟨_, _, hround, ?_⟩
          rw [List.append_assoc] at hr
          simpa [hp, pulled, show MEAT_CHUNK ≠ END_CHUNK by decide] using hr
        · intro hlen
          obtain ⟨h1, h2⟩ := hall (by simpa [pulled, hp] using hlen)
          exact ⟨h1, by simp [h2, chunkRcvs, evs1]⟩

/-- The client's state after a download that published `ps`. -/
def downloaded (ps : List (Bytes × Bytes)) (st : ClientState) : ClientState :=
  { written (ps.map Prod.snd).flatten
      { st with locals := st.locals + 2, hashes := st.hashes + 1 } with accepted := ps.map Prod.fst }

/-- Opening the output file and writing what was pulled. -/
theorem downloaded_opened (ps : List (Bytes × Bytes)) (st : ClientState) (name : Bytes) :
    (downloaded ps (C.opened name st)).fs = st.fs.stored C.cwd name (ps.map Prod.snd).flatten ∧
      (downloaded ps (C.opened name st)).shown = st.shown := by
  unfold opened FS.stored
  cases ho : st.fs.openTrunc C.cwd name with
  | none => exact ⟨rfl, rfl⟩
  | some x =>
    obtain ⟨p, fs⟩ := x
    obtain rfl := FS.openTrunc_eq ho
    simp [downloaded, written, FS.append_insert]

/-- A download of header, salt and chunks. The client derives its key from the
salt, and what it writes is what the pulling loop publishes. -/
theorem runs_decryptAndRead (act : Nat) (nonce : Bytes) {header salt : Bytes}
    (hh : header.length = STREAM_HEADERBYTES) (hs : salt.length = PWHASH_SALTBYTES)
    {cs : List Bytes} (hne : cs ≠ []) (hb : ∀ c ∈ cs, c.length ≤ FILE_ENCRYPTED_CHUNK_SIZE)
    (hoom : C.host.oom st.hashes = false) {state : C.na.ss.State}
    (hi : C.na.ss.initPull header (C.na.pwhash C.password salt) = some state) :
    ∃ evs rest', Runs (C.decryptAndReadFromServer act)
        ⟨st, sent (fileEvs C.na.aead C.client_rx act nonce header salt cs) ++ rest, e, h, []⟩
        (pulled C.na.ss state cs).1
        ⟨downloaded (pulled C.na.ss state cs).2.1 st, rest', e, h ++ evs, []⟩ ∧
      ((pulled C.na.ss state cs).2.2 = cs.length →
        rest' = rest ∧ evs = fileRcvs C.na.aead C.client_rx act nonce header salt cs) := by
  let n1 := sodiumIncrement nonce
  let n2 := sodiumIncrement n1
  let evs0 : List (Ev Role) := frameRcvs C.na.aead ⟨act, .header⟩ C.client_rx n1 header ++
    frameRcvs C.na.aead ⟨act, .salt⟩ C.client_rx n2 salt
  obtain ⟨evs, rest', hloop, hall⟩ := runs_pullLoop (C := C)
    { st with locals := st.locals + 2, hashes := st.hashes + 1 } rest e (h ++ evs0) act hne hb n2 0
    END_CHUNK state []
  refine ⟨evs0 ++ evs, rest', ?_, ?_⟩
  · refine Runs.modifyGet_bind ?_
    refine Runs.modifyGet_bind ?_
    simp only [fileEvs, sent, List.append_assoc]
    refine Runs.bind (runs_initRead _ _ e h act (by simp) (by simp) hh hs (fit_length _ _)
      (fit_length _ _)) ?_
    refine Runs.modifyGet_bind ?_
    simp only [hoom, Bool.false_eq_true, if_false, hi]
    refine Runs.bind hloop ?_
    refine Runs.modify_bind ?_
    refine Runs.modify_bind ?_
    simp [writerOutput, downloaded]
  · intro hlen
    obtain ⟨h1, h2⟩ := hall hlen
    exact ⟨h1, by simp [h2, fileRcvs, evs0, n1, n2]⟩

/-- A header that `init_pull` rejects: the chunks stay unread. -/
theorem runs_decryptAndRead_badHeader (act : Nat) (nonce : Bytes) {header salt : Bytes}
    (hh : header.length = STREAM_HEADERBYTES) (hs : salt.length = PWHASH_SALTBYTES) (cs : List Bytes)
    (hoom : C.host.oom st.hashes = false)
    (hi : C.na.ss.initPull header (C.na.pwhash C.password salt) = none) :
    ∃ evs rest', Runs (C.decryptAndReadFromServer act)
        ⟨st, sent (fileEvs C.na.aead C.client_rx act nonce header salt cs) ++ rest, e, h, []⟩ 2
        ⟨{ st with locals := st.locals + 2, hashes := st.hashes + 1 }, rest', e, h ++ evs, []⟩ := by
  let n1 := sodiumIncrement nonce
  let n2 := sodiumIncrement n1
  refine ⟨frameRcvs C.na.aead ⟨act, .header⟩ C.client_rx n1 header ++
    frameRcvs C.na.aead ⟨act, .salt⟩ C.client_rx n2 salt,
    sent (chunkEvs C.na.aead C.client_rx act n2 0 (marked cs)) ++ rest, ?_⟩
  refine Runs.modifyGet_bind ?_
  refine Runs.modifyGet_bind ?_
  simp only [fileEvs, sent, List.append_assoc]
  refine Runs.bind (runs_initRead _ _ e h act (by simp) (by simp) hh hs (fit_length _ _)
    (fit_length _ _)) ?_
  refine Runs.modifyGet_bind ?_
  simp only [hoom, Bool.false_eq_true, if_false, hi]
  exact (runs_pure _ _ _ _).mpr ⟨rfl, rfl⟩

/-! ## List and delete -/

/-- As many names as were announced. -/
theorem runs_readNames_done (act : Nat) {count : Int} {i : Nat} (hi : count ≤ i) (w : World ClientState Role) :
    Runs (loop (C.readNames act count) i) w 0 w := by
  rw [runs_loop]
  refine ⟨.inr 0, w, ?_, rfl, rfl⟩
  simp [readNames, hi]

/-- Names that fit, one after the other. -/
theorem Runs.readNames_fit (act : Nat) {nonce : Nat → Bytes} (hn : ∀ i, (nonce i).length = 8) {count : Int}
    {ns : List Name} (hf : ∀ n ∈ ns, (n ++ [0]).length ≤ MAX_FILE_NAME_LENGTH - 1) (i : Nat)
    (hi : ns.length ≤ (count - i).toNat) {r : Int} {w : World ClientState Role}
    (hr : Runs (loop (C.readNames act count) (i + ns.length))
      ⟨{ st with shown := st.shown ++ ns.map fun n => .name (cstr n) }, rest, e,
        h ++ nameRcvs C.na.aead C.client_rx act nonce i ns, []⟩ r w) :
    Runs (loop (C.readNames act count) i)
      ⟨st, sent (nameEvs C.na.aead C.client_rx act nonce i ns) ++ rest, e, h, []⟩ r w := by
  induction ns generalizing st h i with
  | nil => simpa [nameEvs, nameRcvs, sent] using hr
  | cons n ns ih =>
    have hfit := hf n List.mem_cons_self
    have hshort : (n ++ [0]).length ≤ FILE_ENCRYPTED_CHUNK_SIZE := hfit.trans (by decide)
    simp only [List.length_cons] at hi
    have hcount : ¬ count ≤ i := by omega
    rw [runs_loop]
    refine ⟨.inl (i + 1), ⟨{ st with shown := st.shown ++ [.name (cstr n)] },
      sent (nameEvs C.na.aead C.client_rx act nonce (i + 1) ns) ++ rest, e,
      h ++ frameRcvs C.na.aead ⟨act, .listName i⟩ C.client_rx (nonce i) (n ++ [0]), []⟩, ?_, ?_⟩
    · simp only [readNames, hcount, if_false, nameEvs, sent, List.append_assoc]
      refine Runs.ofSock_bind _ e h (hn i) hshort ?_
      rw [unwrap_received _ _ _ hshort hfit]
      simp only [received_corrupted, Bool.false_eq_true, if_false, ne_eq, not_true_eq_false]
      refine Runs.modify_bind ?_
      simp [cstr_blit_nul]
    · refine ih _ _ (fun x hx => hf x (List.mem_cons_of_mem _ hx)) (i + 1) (by omega) ?_
      have hlen : i + (n :: ns).length = i + 1 + ns.length := by simp; omega
      rw [hlen] at hr
      simpa [nameRcvs, List.append_assoc] using hr

/-- A name that is too long for `filename` ends the list. -/
theorem runs_readNames_tooLong (act : Nat) {nonce : Nat → Bytes} (hn : ∀ i, (nonce i).length = 8)
    {count : Int} {i : Nat} (hi : i < count) {n : Name}
    (hs : (n ++ [0]).length ≤ FILE_ENCRYPTED_CHUNK_SIZE)
    (hl : MAX_FILE_NAME_LENGTH - 1 < (n ++ [0]).length) (ns : List Name) :
    Runs (loop (C.readNames act count) i)
      ⟨st, sent (nameEvs C.na.aead C.client_rx act nonce i (n :: ns)) ++ rest, e, h, []⟩ 1
      ⟨st, sent (nameEvs C.na.aead C.client_rx act nonce (i + 1) ns) ++ rest, e,
        h ++ nameRcvs C.na.aead C.client_rx act nonce i [n], []⟩ := by
  have hcount : ¬ count ≤ i := by omega
  rw [runs_loop]
  refine ⟨.inr 1, _, ?_, rfl, rfl⟩
  simp only [readNames, hcount, if_false, nameEvs, sent, List.append_assoc]
  refine Runs.ofSock_bind _ e h (hn i) hs ?_
  rw [unwrap_received_too_long _ _ _ hs hl]
  simp [nameRcvs]

/-- The count of a list answer, as the client reads it. -/
theorem Runs.lffsHandler_count (act : Nat) {n0 : Bytes} (hn0 : n0.length = 8) {count : Int} {r : Int}
    {w : World ClientState Role}
    (hr : Runs (loop (C.readNames act (i32Dec (i32Enc count))) 0)
      ⟨{ st with locals := st.locals + 1, shown := st.shown ++ [.storedFiles (i32Dec (i32Enc count))] }, rest,
        e, h ++ frameRcvs C.na.aead ⟨act, .listCount⟩ C.client_rx n0 (i32Enc count), []⟩ r w) :
    Runs (C.lffsHandler act) ⟨st, frame C.na.aead C.client_rx n0 (i32Enc count) ++ rest, e, h, []⟩ r w := by
  refine Runs.modifyGet_bind ?_
  refine Runs.ofSock_bind _ e h hn0 (i32_short _) ?_
  rw [unwrap_received _ _ _ (i32_short _) (by simp), blit_eq_of_length (by simp [fit_length])]
  simp only [received_corrupted, Bool.false_eq_true, if_false, ne_eq, not_true_eq_false]
  exact Runs.modify_bind hr

/-- A name that fits in `filename`. -/
theorem name_fits_iff (m : Name) : (m ++ [0]).length ≤ MAX_FILE_NAME_LENGTH - 1 ↔ m.length ≤ 253 := by
  simp only [List.length_append, List.length_singleton, MAX_FILE_NAME_LENGTH]
  omega

/-- The client behind a list answer of which it has read the names `ns`. -/
def listed (st : ClientState) (count : Int) (ns : List Name) : ClientState :=
  { st with locals := st.locals + 1,
            shown := st.shown ++ .storedFiles (i32Dec (i32Enc count)) :: ns.map fun n => .name (cstr n) }

section
variable (act : Nat) {n0 : Bytes} (hn0 : n0.length = 8) {nonce : Nat → Bytes}
  (hn : ∀ i, (nonce i).length = 8) {count : Int} {ns : List Name}
  (hf : ∀ n ∈ ns, (n ++ [0]).length ≤ MAX_FILE_NAME_LENGTH - 1)

include hn0 hn hf

/-- As many names as announced, all of which fit. -/
theorem runs_lffs_fit (hc : ns.length = (i32Dec (i32Enc count)).toNat) :
    Runs (C.lffsHandler act)
      ⟨st, frame C.na.aead C.client_rx n0 (i32Enc count) ++
        (sent (nameEvs C.na.aead C.client_rx act nonce 0 ns) ++ rest), e, h, []⟩ 0
      ⟨listed st count ns, rest, e, h ++ (frameRcvs C.na.aead ⟨act, .listCount⟩ C.client_rx n0 (i32Enc count) ++
        nameRcvs C.na.aead C.client_rx act nonce 0 ns), []⟩ := by
  refine Runs.lffsHandler_count _ _ e h act hn0 ?_
  refine Runs.readNames_fit _ _ e _ act hn hf 0 (by simp [hc]) ?_
  have hi : i32Dec (i32Enc count) ≤ ((0 + ns.length : Nat) : Int) := by omega
  have hdone := runs_readNames_done (C := C) act hi ⟨listed st count ns, rest, e,
    h ++ (frameRcvs C.na.aead ⟨act, .listCount⟩ C.client_rx n0 (i32Enc count) ++
      nameRcvs C.na.aead C.client_rx act nonce 0 ns), []⟩
  simpa [listed, List.append_assoc] using hdone

/-- A name that does not fit. -/
theorem runs_lffs_long (hc : ns.length < i32Dec (i32Enc count)) {m : Name}
    (hs : (m ++ [0]).length ≤ FILE_ENCRYPTED_CHUNK_SIZE) (hm : MAX_FILE_NAME_LENGTH - 1 < (m ++ [0]).length)
    (ms : List Name) :
    Runs (C.lffsHandler act)
      ⟨st, frame C.na.aead C.client_rx n0 (i32Enc count) ++
        (sent (nameEvs C.na.aead C.client_rx act nonce 0 (ns ++ m :: ms)) ++ rest), e, h, []⟩ 1
      ⟨listed st count ns, sent (nameEvs C.na.aead C.client_rx act nonce (ns.length + 1) ms) ++ rest, e,
        h ++ (frameRcvs C.na.aead ⟨act, .listCount⟩ C.client_rx n0 (i32Enc count) ++
          nameRcvs C.na.aead C.client_rx act nonce 0 (ns ++ [m])), []⟩ := by
  refine Runs.lffsHandler_count _ _ e h act hn0 ?_
  rw [nameEvs_append, sent_append, List.append_assoc, nameRcvs_append]
  refine Runs.readNames_fit _ _ e _ act hn hf 0 (by omega) ?_
  have hi : ((0 + ns.length : Nat) : Int) < i32Dec (i32Enc count) := by omega
  have hlast := runs_readNames_tooLong (C := C) (listed st count ns) rest e
    (h ++ frameRcvs C.na.aead ⟨act, .listCount⟩ C.client_rx n0 (i32Enc count) ++
      nameRcvs C.na.aead C.client_rx act nonce 0 ns) act hn hi hs hm ms
  simpa [listed, List.append_assoc] using hlast

end

/-- A list answer with a count that is an `int`: only the last name may be too
long for `filename`. -/
theorem runs_lffsHandler (act : Nat) {n0 : Bytes} (hn0 : n0.length = 8) {nonce : Nat → Bytes}
    (hn : ∀ i, (nonce i).length = 8) {ns : List Name}
    (hs : ∀ n ∈ ns, (n ++ [0]).length ≤ FILE_ENCRYPTED_CHUNK_SIZE)
    (hf : ∀ n ∈ ns.dropLast, (n ++ [0]).length ≤ MAX_FILE_NAME_LENGTH - 1) (hc : ns.length < 2 ^ 31) :
    ∃ (st' : ClientState) (r : Int), st'.fs = st.fs ∧
      ((∀ n ∈ ns, (n ++ [0]).length ≤ MAX_FILE_NAME_LENGTH - 1) → r = 0 ∧
        st'.shown = st.shown ++ .storedFiles ns.length :: ns.map fun n => .name (cstr n)) ∧
      Runs (C.lffsHandler act)
        ⟨st, frame C.na.aead C.client_rx n0 (i32Enc ns.length) ++
          (sent (nameEvs C.na.aead C.client_rx act nonce 0 ns) ++ rest), e, h, []⟩ r
        ⟨st', rest, e, h ++ (frameRcvs C.na.aead ⟨act, .listCount⟩ C.client_rx n0 (i32Enc ns.length) ++
          nameRcvs C.na.aead C.client_rx act nonce 0 ns), []⟩ := by
  have hcount : i32Dec (i32Enc ns.length) = ns.length := i32Dec_i32Enc (by omega) (by exact_mod_cast hc)
  by_cases hall : ∀ n ∈ ns, (n ++ [0]).length ≤ MAX_FILE_NAME_LENGTH - 1
  · refine ⟨listed st ns.length ns, 0, rfl, fun _ => ⟨rfl, by simp [listed, hcount]⟩, ?_⟩
    exact runs_lffs_fit st rest e h act hn0 hn hall (by simp [hcount])
  · -- only the last name is too long
    obtain ⟨ms, m, rfl⟩ : ∃ ms m, ns = ms ++ [m] := by
      rcases List.eq_nil_or_concat' ns with rfl | hns
      · simp at hall
      · exact hns
    rw [List.dropLast_concat] at hf
    have hlong : MAX_FILE_NAME_LENGTH - 1 < (m ++ [0]).length := by
      by_contra hle
      refine hall fun n hn => ?_
      rcases List.mem_append.mp hn with hn | hn
      · exact hf n hn
      · rw [List.mem_singleton.mp hn]
        omega
    refine ⟨listed st (ms ++ [m]).length ms, 1, rfl, fun h => (hall h).elim, ?_⟩
    have hlt : (ms.length : Int) < i32Dec (i32Enc (ms ++ [m]).length) := by
      rw [hcount]
      simp
    exact runs_lffs_long st rest e h act hn0 hn hf hlt (hs m (by simp)) hlong []

/-! ## Actions in two parts

What the client sends without waiting, and how it goes on from there. -/

variable (C) in
/-- Notice and agents: what every action starts with. -/
def announce (act : Nat) : Client (SenderAgent × ReceiverAgent) := do
  C.notifyServerOfAction act NEW_ACTION
  let SA ← C.newSenderAgent
  let RA ← C.newReceiverAgent
  return (SA, RA)

variable (C) in
/-- Notice, agents, intent. -/
def request (act : Nat) (intention : Int) : Client (SenderAgent × ReceiverAgent) := do
  let x ← C.announce act
  C.sendIntention act intention
  return x

variable (C) in
def askRead (act : Nat) (file_name : Bytes) : Client Unit := do
  let (_, RA) ← C.request act READ_FROM_FILESYSTEM
  let _ ← sendFrame C.na.aead ⟨act, .fileName⟩ (file_name ++ [0]) C.client_tx RA.nonce

variable (C) in
def readReply (act : Nat) (file_name : Bytes) : Client (Option ClientEnd) := do
  C.openOut (file_name.take (file_name.length - 4))
  let _ ← C.decryptAndReadFromServer act
  return none

variable (C) in
def askDelete (act : Nat) (file_name : Bytes) : Client Unit := do
  let _ ← C.request act DELETE_FILE
  let nonce ← C.randombytes AEAD_NPUBBYTES
  let _ ← sendFrame C.na.aead ⟨act, .fileName⟩ (file_name ++ [0]) C.client_tx nonce

variable (C) in
def deleteReply (act : Nat) : Client Int := do
  let result ← C.uninit
  let result_wrap ← ofSock ⟨act, .deleteResult⟩
  if result_wrap.corrupted then return 1
  else
    let u := result_wrap.unwrap C.na.aead C.client_rx 4 (fit 4 result) 0
    if u.ret ≠ 0 then return 1
    else
      if i32Dec u.decrypted_data = ACK_SUC then print .deleted else print .failedToDelete
      return 0

section
variable {act : Nat} {a : UserAction}

theorem performAction_confusion (ha : a.intention = CONFUSION) :
    C.performAction act a = C.announce act >>= fun _ => pure (some (.returned (-1))) := by
  simp [performAction, ha, announce]

/-- The intentions `authed_comms` acts on. -/
def Known (intention : Int) : Prop :=
  intention = READ_FROM_FILESYSTEM ∨ intention = WRITE_TO_FILESYSTEM ∨ intention = LIST_FILES ∨
    intention = DELETE_FILE

/-- Any other intention: nothing follows the notice. -/
theorem performAction_other (hc : a.intention ≠ CONFUSION) (hk : ¬ Known a.intention) :
    C.performAction act a = C.announce act >>= fun _ => pure none := by
  simp only [Known, not_or] at hk
  simp [performAction, announce, hc, hk]

theorem performAction_read (ha : a.intention = READ_FROM_FILESYSTEM) (hl : ¬ a.file_name.length < 4) :
    C.performAction act a = C.askRead act a.file_name >>= fun _ => C.readReply act a.file_name := by
  simp [performAction, ha, CONFUSION, READ_FROM_FILESYSTEM, askRead, request, announce,
    readReply, rffsHandler, hl]

theorem performAction_read_threw (ha : a.intention = READ_FROM_FILESYSTEM) (hl : a.file_name.length < 4) :
    C.performAction act a = C.askRead act a.file_name >>= fun _ => pure (some .threw) := by
  simp [performAction, ha, CONFUSION, READ_FROM_FILESYSTEM, askRead, request, announce,
    rffsHandler, hl]

theorem performAction_write (ha : a.intention = WRITE_TO_FILESYSTEM) :
    C.performAction act a = C.request act WRITE_TO_FILESYSTEM >>= fun x =>
      C.wtfsHandler act x.1 a.file_name >>= fun _ => pure none := by
  simp [performAction, ha, CONFUSION, READ_FROM_FILESYSTEM, WRITE_TO_FILESYSTEM, request, announce]

/-- The same, in the parts of an upload without an end. -/
theorem performAction_upload (ha : a.intention = WRITE_TO_FILESYSTEM) :
    C.performAction act a = (C.request act WRITE_TO_FILESYSTEM >>= fun x =>
      C.initUpload act x.1 a.file_name) >>= fun y => C.sendAll act y >>= fun _ => pure none := by
  have hend : ∀ r : Int, ((if r ≠ 0 then pure 1 else pure 0 : Client Int) >>= fun _ =>
      (pure none : Client (Option ClientEnd))) = pure none := by
    intro r
    split <;> rfl
  simp only [performAction_write ha, wtfsHandler, encryptAndSendToServer_eq, LawfulMonad.bind_assoc, hend]

theorem performAction_list (ha : a.intention = LIST_FILES) :
    C.performAction act a = C.request act LIST_FILES >>= fun _ =>
      C.lffsHandler act >>= fun _ => pure none := by
  simp [performAction, ha, CONFUSION, READ_FROM_FILESYSTEM, WRITE_TO_FILESYSTEM, LIST_FILES, request,
    announce]

theorem performAction_delete (ha : a.intention = DELETE_FILE) :
    C.performAction act a = C.askDelete act a.file_name >>= fun _ =>
      C.deleteReply act >>= fun _ => pure none := by
  simp [performAction, ha, CONFUSION, READ_FROM_FILESYSTEM, WRITE_TO_FILESYSTEM, LIST_FILES,
    DELETE_FILE, request, announce, askDelete, deleteReply, dffsHandler]

variable (act) in
theorem performAction_known (hk : Known a.intention) :
    ∃ rest : SenderAgent × ReceiverAgent → Client (Option ClientEnd),
      C.performAction act a = C.request act a.intention >>= rest := by
  rcases hk with ha | ha | ha | ha
  · by_cases hl : a.file_name.length < 4
    · rw [performAction_read_threw ha hl, askRead, LawfulMonad.bind_assoc, ha]
      exact ⟨_, rfl⟩
    · rw [performAction_read ha hl, askRead, LawfulMonad.bind_assoc, ha]
      exact ⟨_, rfl⟩
  · rw [performAction_write ha, ha]
    exact ⟨_, rfl⟩
  · rw [performAction_list ha, ha]
    exact ⟨_, rfl⟩
  · rw [performAction_delete ha, askDelete, LawfulMonad.bind_assoc, ha]
    exact ⟨_, rfl⟩

end

variable (C) in
/-- What goes out before the handler: the notice and the intent. -/
def requestEvs (act : Nat) (n1 n2 : Bytes) (intention : Int) : List (Ev Role) :=
  [.snd ⟨act, .notice⟩ (frame C.na.aead C.client_tx n1 (i32Enc NEW_ACTION)),
    .snd ⟨act, .intent⟩ (frame C.na.aead C.client_tx n2 (i32Enc intention))]

theorem runs_announce (act : Nat) :
    ∃ (st' : ClientState) (x : SenderAgent × ReceiverAgent) (n : Bytes), n.length = 8 ∧
      st.Same st' ∧ st'.hashes = st.hashes + 1 ∧
      Runs (C.announce act) ⟨st, inp, e, h, []⟩ x
        ⟨st', inp, e, h ++ [.snd ⟨act, .notice⟩ (frame C.na.aead C.client_tx n (i32Enc NEW_ACTION))], []⟩ := by
  let n := sodiumIncrement st.original_nonce
  obtain ⟨st1, SA, hs1, hh1, r1⟩ := runs_newSenderAgent (C := C) { st with original_nonce := n } inp e
    (h ++ [.snd ⟨act, .notice⟩ (frame C.na.aead C.client_tx n (i32Enc NEW_ACTION))])
  obtain ⟨st2, RA, hs2, hh2, r2⟩ := runs_newReceiverAgent (C := C) st1 inp e
    (h ++ [.snd ⟨act, .notice⟩ (frame C.na.aead C.client_tx n (i32Enc NEW_ACTION))])
  have hs := hs1.trans hs2
  refine ⟨st2, (SA, RA), n, sodiumIncrement_length _, ⟨hs.fs, hs.shown⟩, hh2.trans hh1, ?_⟩
  refine Runs.bind (runs_sendSession st inp e h _ _) ?_
  refine Runs.bind r1 ?_
  refine Runs.bind r2 ?_
  simp

theorem runs_request (act : Nat) (intention : Int) :
    ∃ (st' : ClientState) (x : SenderAgent × ReceiverAgent) (n1 n2 : Bytes), n1.length = 8 ∧
      n2.length = 8 ∧ st.Same st' ∧ st'.hashes = st.hashes + 1 ∧
      Runs (C.request act intention) ⟨st, inp, e, h, []⟩ x
        ⟨st', inp, e, h ++ C.requestEvs act n1 n2 intention, []⟩ := by
  obtain ⟨st1, x, n1, h1, hs, hh, hr⟩ := runs_announce (C := C) st inp e h act
  let n2 := sodiumIncrement st1.original_nonce
  refine ⟨{ st1 with original_nonce := n2 }, x, n1, n2, h1, sodiumIncrement_length _, ⟨hs.fs, hs.shown⟩,
    hh, ?_⟩
  refine Runs.bind hr ?_
  refine Runs.bind (runs_sendSession _ inp e _ _ _) ?_
  simp [requestEvs, n2]

/-- A whole upload of a regular file, from the notice on. -/
theorem runs_askUpload (act : Nat) {file_name c : Bytes}
    (ho : st.fs.openRead C.cwd file_name = some ⟨c, false⟩) :
    ∃ (st' : ClientState) (n1 n2 nonce nonce' r key salt : Bytes), n1.length = 8 ∧ n2.length = 8 ∧
      salt.length = PWHASH_SALTBYTES ∧
      (C.host.oom (st.hashes + 1) = false → key = C.na.pwhash C.password salt) ∧ st.Same st' ∧
      Runs (C.request act WRITE_TO_FILESYSTEM >>= fun x => C.wtfsHandler act x.1 file_name)
        ⟨st, inp, e, h, []⟩ 0
        ⟨st', inp, e, h ++ (C.requestEvs act n1 n2 WRITE_TO_FILESYSTEM ++
          (initEvs C.na.aead C.client_tx act nonce file_name (C.na.ss.initPush r key).2 salt ++
            chunkEvs C.na.aead C.client_tx act nonce' 0
              (marked (pushAll C.na.ss (C.na.ss.initPush r key).1 (cut CHUNK_SIZE c))))), []⟩ := by
  obtain ⟨st1, x, n1, n2, h1, h2, hs1, hh, hreq⟩ :=
    runs_request (C := C) st inp e h act WRITE_TO_FILESYSTEM
  rw [← hs1.fs] at ho
  obtain ⟨st2, nonce', r, key, salt, hs2, hsalt, hk, hup⟩ :=
    runs_upload (C := C) st1 inp e (h ++ C.requestEvs act n1 n2 WRITE_TO_FILESYSTEM) act x.1 ho
  rw [hh] at hk
  refine ⟨st2, n1, n2, x.1.nonce, nonce', r, key, salt, h1, h2, hsalt, hk, hs1.trans hs2, ?_⟩
  refine Runs.bind hreq (Runs.bind hup ?_)
  simp

theorem runs_askRead (act : Nat) (file_name : Bytes) :
    ∃ (st' : ClientState) (n1 n2 n3 : Bytes), n1.length = 8 ∧ n2.length = 8 ∧ n3.length = 8 ∧
      st.Same st' ∧ st'.hashes = st.hashes + 1 ∧
      Runs (C.askRead act file_name) ⟨st, inp, e, h, []⟩ ()
        ⟨st', inp, e, h ++ (C.requestEvs act n1 n2 READ_FROM_FILESYSTEM ++
          [.snd ⟨act, .fileName⟩ (frame C.na.aead C.client_tx n3 (file_name ++ [0]))]), []⟩ := by
  obtain ⟨st', x, n1, n2, h1, h2, hs, hh, hr⟩ :=
    runs_request (C := C) st inp e h act READ_FROM_FILESYSTEM
  refine ⟨st', n1, n2, sodiumIncrement x.2.nonce, h1, h2, sodiumIncrement_length _, hs, hh, ?_⟩
  refine Runs.bind hr ?_
  refine Runs.bind (runs_sendFrame _ e _ _ _ inp _ _ _) ?_
  simp

theorem runs_askDelete (act : Nat) (file_name : Bytes) :
    ∃ (st' : ClientState) (n1 n2 n3 : Bytes), n1.length = 8 ∧ n2.length = 8 ∧ n3.length = 8 ∧
      st.Same st' ∧
      Runs (C.askDelete act file_name) ⟨st, inp, e, h, []⟩ ()
        ⟨st', inp, e, h ++ (C.requestEvs act n1 n2 DELETE_FILE ++
          [.snd ⟨act, .fileName⟩ (frame C.na.aead C.client_tx n3 (file_name ++ [0]))]), []⟩ := by
  obtain ⟨st', x, n1, n2, h1, h2, hs, -, hr⟩ := runs_request (C := C) st inp e h act DELETE_FILE
  let nonce := fit AEAD_NPUBBYTES (C.host.rand st'.draws)
  refine ⟨{ st' with draws := st'.draws + 1 }, n1, n2, sodiumIncrement nonce, h1, h2,
    sodiumIncrement_length _, ⟨hs.fs, hs.shown⟩, ?_⟩
  refine Runs.bind hr ?_
  refine Runs.modifyGet_bind ?_
  refine Runs.bind (runs_sendFrame _ e _ _ _ inp _ _ _) ?_
  simp [nonce]

theorem runs_deleteReply (act : Nat) {n : Bytes} (hn : n.length = 8) (removed : Bool) :
    ∃ st' : ClientState, st'.fs = st.fs ∧
      st'.shown = st.shown ++ [if removed then .deleted else .failedToDelete] ∧
      Runs (C.deleteReply act)
        ⟨st, frame C.na.aead C.client_rx n (i32Enc (if removed then ACK_SUC else ACK_FAIL)) ++ rest, e, h,
          []⟩ 0
        ⟨st', rest, e, h ++ frameRcvs C.na.aead ⟨act, .deleteResult⟩ C.client_rx n
          (i32Enc (if removed then ACK_SUC else ACK_FAIL)), []⟩ := by
  refine ⟨{ st with locals := st.locals + 1,
                    shown := st.shown ++ [if removed then .deleted else .failedToDelete] }, rfl, rfl, ?_⟩
  refine Runs.modifyGet_bind ?_
  refine Runs.ofSock_bind _ e h hn (i32_short _) ?_
  obtain ⟨hz, hv⟩ := unwrap_received_i32 C.na.aead C.client_rx n
    (v := if removed then ACK_SUC else ACK_FAIL) (by cases removed <;> decide)
    (by cases removed <;> decide) (fit_length 4 (C.host.stack st.locals)) 0
  simp only [received_corrupted, hz, hv, Bool.false_eq_true, if_false, ne_eq, not_true_eq_false]
  cases removed with
  | true =>
    refine Runs.modify_bind ?_
    simp
  | false =>
    simp only [show ACK_FAIL ≠ ACK_SUC by decide, Bool.false_eq_true, if_false]
    refine Runs.modify_bind ?_
    simp

end ClientEnv

end Mefsc.L3
