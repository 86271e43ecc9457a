import Mefsc.L4App.Intake

/-!
# Blobs that are stored and sent again

`WTFS_Handler__Server` appends the blobs of an upload to the file one after the
other; `RFFS_Handler__Server` reads the file back in blocks of
`FILE_ENCRYPTED_CHUNK_SIZE` bytes. The file does not say where a blob ended, so
the boundaries come back only when the blobs were such blocks.

The client is any that holds the session key: its frames may have any nonces, and
its blobs any lengths up to the capacity, zero included (`chunkStream`).

* `runs_wtfs_stream`: what such an upload leaves in the file.
* `blobs_resent`: what a later download of it sends.
-/
namespace Mefsc.L4

open L1 L1.SessionEncWrapper L2 L3
open Proc hiding ret recv send act iter bind

/-- Chunks `j, j+1, ..` with their prefixes, under any nonces. -/
def chunkStream (A : Aead) (tx : Bytes) (nonce : Nat → Bytes) : Nat → List (Int × Bytes) → Bytes
  | _, [] => []
  | j, (v, b) :: cs => frame A tx (nonce j) (i32Enc v) ++ (blob b ++ chunkStream A tx nonce (j + 1) cs)

/-! ## Storing -/

section
variable {E : ServerEnv} {st : FsOperator} {inp rest : Bytes}
  {nonce : Nat → Bytes} {bs : List Bytes}

/-- The receiving loop takes all blobs. -/
theorem runs_wtfsLoop_stream (act : Nat) (st : FsOperator) (rest : Bytes) (e : Bool) (h : List (Ev Role))
    (hn : ∀ i, (nonce i).length = 8) (hne : bs ≠ [])
    (hb : ∀ b ∈ bs, b.length ≤ FILE_ENCRYPTED_CHUNK_SIZE) (j : Nat) (p : Int) (pub : List Bytes) :
    ∃ evs, Runs (loop (E.wtfsRound act) (j, p, pub))
      ⟨st, chunkStream E.na.aead E.server_rx nonce j (marked bs) ++ rest, e, h, []⟩ (0, pub ++ bs)
      ⟨st, rest, e, h ++ evs, []⟩ := by
  induction bs generalizing j p pub h with
  | nil => exact absurd rfl hne
  | cons b bs ih =>
    have hb0 := hb b List.mem_cons_self
    cases bs with
    | nil =>
      have hround := ServerEnv.runs_wtfsRound (E := E) st rest e h act j p pub (hn j) (v := END_CHUNK) (by decide)
        (by decide) hb0
      rw [if_pos rfl] at hround
      have hloop := (runs_loop (E.wtfsRound act) (j, p, pub) _ _ _).mpr ⟨_, _, hround, rfl, rfl⟩
      exact ⟨_, by simpa [marked, chunkStream] using hloop⟩
    | cons b' bs =>
      have hround := ServerEnv.runs_wtfsRound (E := E) st
        (chunkStream E.na.aead E.server_rx nonce (j + 1) (marked (b' :: bs)) ++ rest) e h act j p pub (hn j)
        (v := MEAT_CHUNK) (by decide) (by decide) hb0
      rw [if_neg (by decide), if_pos rfl] at hround
      obtain ⟨evs, hmore⟩ := ih (h ++ _) (by simp) (fun x hx => hb x (List.mem_cons_of_mem _ hx)) (j + 1)
        MEAT_CHUNK (pub ++ [b])
      have hloop := (runs_loop (E.wtfsRound act) (j, p, pub) _ _ _).mpr ⟨_, _, hround, hmore⟩
      exact ⟨_, by simpa [marked, chunkStream] using hloop⟩

/-- A frame leaves a buffer as long as it was. -/
theorem unwrap_length {w : SessionEncWrapper} (hw : Taken w) {cap : Nat} {buf : Bytes} (hbuf : buf.length = cap)
    (len : Nat) :
    (w.unwrap E.na.aead E.server_rx cap buf len).decrypted_data.length = cap := by
  have hu : Unwraps E.na.aead E.server_rx cap buf len w _ := hw.unwraps cap buf len
  generalize w.unwrap E.na.aead E.server_rx cap buf len = u at hu ⊢
  cases hu with
  | stub h => exact hbuf
  | long h => exact hbuf
  | forged h =>
    have hfits := h.fits
    have hlen := hw.length
    simp only [blit, List.length_append, List.length_replicate, List.length_drop]
    omega
  | ok m h hm =>
    simp only [blit, List.length_append, List.length_drop]
    omega

theorem uploadStart_length {f : Frames} (hp : Passes E (nameLen0 E { st with locals := st.locals + 3 }) f) :
    (uploadStart E st f).2.1.length = STREAM_HEADERBYTES ∧ (uploadStart E st f).2.2.length = PWHASH_SALTBYTES :=
  ⟨unwrap_length hp.whole.2.2.1 (fit_length _ _) 0, unwrap_length hp.whole.2.2.2 (fit_length _ _) 0⟩

/-- A whole upload, whatever it starts with. -/
theorem runs_wtfs_stream (act : Nat) (e : Bool) (h : List (Ev Role)) {f : Frames} (hf : fourFrames inp = some f)
    (hp : Passes E (nameLen0 E { st with locals := st.locals + 3 }) f) (hn : ∀ i, (nonce i).length = 8) (hne : bs ≠ [])
    (hb : ∀ b ∈ bs, b.length ≤ FILE_ENCRYPTED_CHUNK_SIZE)
    (hrest : f.rest = chunkStream E.na.aead E.server_rx nonce 0 (marked bs) ++ rest) :
    ∃ st' evs, Runs (E.wtfsHandlerServer act) ⟨st, inp, e, h, []⟩ 0 ⟨st', rest, e, h ++ evs, []⟩ ∧
      st'.fs = st.fs.stored E.cwd (E.user_dir ++ (cstr (uploadStart E st f).1 ++ ext))
        ((uploadStart E st f).2.1 ++ (uploadStart E st f).2.2 ++ bs.flatten) := by
  obtain ⟨w', hinit⟩ := runs_initRead_passes act (E.host.stack st.locals)
    (fit STREAM_HEADERBYTES (E.host.stack (st.locals + 1))) (fit PWHASH_SALTBYTES (E.host.stack (st.locals + 2)))
    hf hp e h []
  obtain ⟨f', evs, hf', -, -, rfl⟩ := initRead_passes hinit
  obtain rfl := Option.some.inj (hf.symm.trans hf')
  let st4 : FsOperator := { st with locals := st.locals + 4 }
  let x := uploadStart E st f
  obtain ⟨evs', hloop⟩ := runs_wtfsLoop_stream (E := E) act _ rest e (h ++ evs) hn hne hb 0
    END_CHUNK []
  rw [← hrest] at hloop
  refine ⟨ServerEnv.written (x.2.1 ++ x.2.2 ++ bs.flatten) (E.opened (cstr x.1 ++ ext) st4), evs ++ evs', ?_,
    (ServerEnv.written_opened _ st4 _).1⟩
  refine Runs.modifyGet_bind ?_
  refine Runs.modifyGet_bind ?_
  refine Runs.modifyGet_bind ?_
  refine Runs.bind hinit ?_
  refine Runs.modify_bind ?_
  refine Runs.modify_bind ?_
  refine Runs.modify_bind ?_
  refine Runs.bind hloop ?_
  refine Runs.modify_bind ?_
  simp only [runs_pure, true_and, List.append_assoc, List.nil_append, ServerEnv.written_written, writerOutput]
  rfl

end

/-! ## Sending -/

theorem marked_inj {bs cs : List Bytes} (h : marked bs = marked cs) : bs = cs := by
  rw [← marked_map_snd bs, h, marked_map_snd]

/-- The chunks of a file behind a header and a salt. -/
theorem sentChunks_append {hd sl : Bytes} (hh : hd.length = STREAM_HEADERBYTES) (hs : sl.length = PWHASH_SALTBYTES)
    (c : Bytes) : ServerEnv.sentChunks (hd ++ sl ++ c) = cut FILE_ENCRYPTED_CHUNK_SIZE c := by
  unfold ServerEnv.sentChunks
  rw [List.drop_left' (by rw [List.length_append, hh, hs])]

/-- The blobs of an upload, stored and sent again by any later session that finds the
file as the upload left it: the bytes are the same, and they come as the same blobs
with the same prefixes exactly when every blob but the last was of full length and the
last was shorter. -/
theorem blobs_resent (E E' : ServerEnv) {inp : Bytes} {f : Frames} (hf : fourFrames inp = some f) {st : FsOperator}
    (hp : Passes E (nameLen0 E { st with locals := st.locals + 3 }) f) {nonce : Nat → Bytes}
    (hn : ∀ i, (nonce i).length = 8) {bs : List Bytes} (hne : bs ≠ [])
    (hb : ∀ b ∈ bs, b.length ≤ FILE_ENCRYPTED_CHUNK_SIZE) {rest : Bytes}
    (hrest : f.rest = chunkStream E.na.aead E.server_rx nonce 0 (marked bs) ++ rest)
    (hopen : (st.fs.openTrunc E.cwd (E.user_dir ++ (cstr (uploadStart E st f).1 ++ ext))).isSome) (act : Nat)
    (e : Bool) :
    ∃ st1 evs1, Runs (E.wtfsHandlerServer act) ⟨st, inp, e, [], []⟩ 0 ⟨st1, rest, e, evs1, []⟩ ∧
      ∀ (st2 : FsOperator) (name n more : Bytes) (act' : Nat) (e' : Bool), n.length = 8 →
        (name ++ [0]).length ≤ PRE_EXT_FILE_NAME_LEN →
        st2.fs.openRead E'.cwd (E'.user_dir ++ cstr name) =
          st1.fs.openRead E.cwd (E.user_dir ++ (cstr (uploadStart E st f).1 ++ ext)) →
        ∃ st3 n1 n2 hd sl cs,
          Runs (E'.rffsHandlerServer act')
            ⟨st2, frame E'.na.aead E'.server_rx n (name ++ [0]) ++ more, e', [], []⟩ 0
            ⟨st3, more, e', frameRcvs E'.na.aead ⟨act', .fileName⟩ E'.server_rx n (name ++ [0]) ++
              [.snd ⟨act', .header⟩ (frame E'.na.aead E'.server_tx n1 hd),
                .snd ⟨act', .salt⟩ (frame E'.na.aead E'.server_tx n2 sl)] ++
              chunkEvs E'.na.aead E'.server_tx act' n2 0 cs, []⟩ ∧
          (cs.map Prod.snd).flatten = bs.flatten ∧
          (cs = marked bs ↔ Blocky FILE_ENCRYPTED_CHUNK_SIZE bs) := by
  obtain ⟨st1, evs1, hup, hfs⟩ := runs_wtfs_stream act e [] hf hp hn hne hb hrest
  obtain ⟨hh, hs⟩ := uploadStart_length hp
  refine ⟨st1, evs1, by simpa using hup, fun st2 name n more act' e' hn8 hl hsame => ?_⟩
  rw [hfs, FS.openRead_stored hopen] at hsame
  obtain ⟨st3, nonce', m1, m2, -, -, hdown⟩ :=
    ServerEnv.runs_rffsHandlerServer (E := E') st2 more e' [] act' hn8 hl hsame
  have hcut := sentChunks_append hh hs bs.flatten
  rw [hcut] at hdown
  refine ⟨st3, _, _, _, _, marked (cut FILE_ENCRYPTED_CHUNK_SIZE bs.flatten), by simpa [fileEvs] using hdown, ?_, ?_⟩
  · rw [marked_map_snd, cut_flatten file_chunk_size_pos]
  · rw [← cut_flatten_iff file_chunk_size_pos]
    exact ⟨marked_inj, congrArg marked⟩

/-- What `init_send` sends in front of the chunks, under any nonces. -/
def startBytes (A : Aead) (tx : Bytes) (nonce : Nat → Bytes) (name header salt rest : Bytes) : Bytes :=
  frame A tx (nonce 0) [1] ++ (frame A tx (nonce 1) name ++ (frame A tx (nonce 2) header ++
    (frame A tx (nonce 3) salt ++ rest)))

/-- The frames of it. -/
def startFrames (A : Aead) (tx : Bytes) (nonce : Nat → Bytes) (name header salt rest : Bytes) : Frames :=
  ⟨received A tx (nonce 0) [1], received A tx (nonce 1) name, received A tx (nonce 2) header,
    received A tx (nonce 3) salt, rest⟩

/-- Such a start passes. -/
theorem passes_start (E : ServerEnv) (len0 : Nat) {nonce : Nat → Bytes} (hn : ∀ i, (nonce i).length = 8)
    (name header salt rest : Bytes) (hname : name.length ≤ PRE_EXT_FILE_NAME_LEN)
    (hh : header.length ≤ STREAM_HEADERBYTES) (hs : salt.length ≤ PWHASH_SALTBYTES) :
    fourFrames (startBytes E.na.aead E.server_rx nonce name header salt rest) =
        some (startFrames E.na.aead E.server_rx nonce name header salt rest) ∧
      Passes E len0 (startFrames E.na.aead E.server_rx nonce name header salt rest) := by
  have htake (i : Nat) {m : Bytes} (hm : m.length ≤ 250) (r : Bytes) :=
    takeFrame_frame E.na.aead E.server_rx (hn i) (Nat.le_trans hm (by decide)) r
  have h1 := htake 0 (m := [1]) (by decide) (frame E.na.aead E.server_rx (nonce 1) name ++
    (frame E.na.aead E.server_rx (nonce 2) header ++ (frame E.na.aead E.server_rx (nonce 3) salt ++ rest)))
  have h2 := htake 1 hname
    (frame E.na.aead E.server_rx (nonce 2) header ++ (frame E.na.aead E.server_rx (nonce 3) salt ++ rest))
  have h3 := htake 2 (Nat.le_trans hh (by decide)) (frame E.na.aead E.server_rx (nonce 3) salt ++ rest)
  have h4 := htake 3 (Nat.le_trans hs (by decide)) rest
  refine ⟨fourFrames_eq h1 h2 h3 h4, ⟨?_, ?_, ?_, ?_⟩, ?_, ?_, ?_, ?_⟩
  · exact takeFrame_taken h1 rfl
  · exact takeFrame_taken h2 rfl
  · exact takeFrame_taken h3 rfl
  · exact takeFrame_taken h4 rfl
  · exact ⟨1, by decide, verified_received _ _ _ _⟩
  · exact .inl ⟨name, verified_received _ _ _ _, hname⟩
  · exact .inl ⟨header, verified_received _ _ _ _, hh⟩
  · exact ⟨salt, verified_received _ _ _ _, hs⟩

/-- Two blobs of one byte each. -/
def splitBlobs : List Bytes := [[1], [2]]

def splitChunks : Bytes := chunkStream plainAead [1] u64Enc 0 (marked splitBlobs)

theorem blobs_resent_split :
    ∃ (st1 st3 : FsOperator) (evs1 evs2 : List (Ev Role)) (n2 : Bytes) (cs : List (Int × Bytes)),
      Runs (aliceServer.wtfsHandlerServer 0)
        ⟨aliceDir, startBytes plainAead [1] u64Enc [97] [] [] splitChunks, false, [], []⟩ 0
        ⟨st1, [], false, evs1, []⟩ ∧
      Runs (aliceServer.rffsHandlerServer 1)
        ⟨st1, frame plainAead [1] (u64Enc 9) ([97] ++ ext ++ [0]), false, [], []⟩ 0
        ⟨st3, [], false, evs2 ++ chunkEvs plainAead [2] 1 n2 0 cs, []⟩ ∧
      (cs.map Prod.snd).flatten = [1, 2] ∧ cs ≠ marked splitBlobs := by
  obtain ⟨hf, hp⟩ := passes_start aliceServer (nameLen0 aliceServer { aliceDir with locals := 3 }) u64Enc_length
    [97] [] [] splitChunks (by decide) (by decide) (by decide)
  have hname : cstr (uploadStart aliceServer aliceDir
      (startFrames aliceServer.na.aead aliceServer.server_rx u64Enc [97] [] [] splitChunks)).1 = [97] := by
    decide +kernel
  obtain ⟨st1, evs1, hup, hdown⟩ := blobs_resent aliceServer aliceServer hf hp u64Enc_length
    (show splitBlobs ≠ [] by decide) (by decide) (List.append_nil _).symm (by rw [hname]; decide) 0 false
  obtain ⟨st3, n1, n2, hd, sl, cs, hsend, hflat, hsame⟩ := hdown st1 ([97] ++ ext) (u64Enc 9) [] 1 false
    (u64Enc_length 9) (by decide) (by rw [hname]; rfl)
  refine ⟨st1, st3, evs1, _, n2, cs, hup, hsend, hflat, fun h => ?_⟩
  exact absurd (hsame.mp h).1 (by decide)

end Mefsc.L4
