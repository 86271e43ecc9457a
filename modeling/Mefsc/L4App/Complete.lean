import Mefsc.L4App.AtRest

/-!
# Downloads that end early

The pulling loop of `decrypt_and_read_from_server` ends when `prefix` is
`END_CHUNK`; the tag that marks the last chunk of an upload is not looked at.
The prefix comes in a frame of its own, the result of unwrapping it is not
looked at either, and `prefix` starts as `END_CHUNK`.

`Ends A rx p inp bs`: with `p` in effect, the blobs of the stream `inp` up to
the first one that comes with `END_CHUNK` are `bs`. A download that returns 0 has
pulled exactly those (`decrypt_zero`), so it is complete unless the stream
ends in this sense inside an upload (`download_complete_iff`).
-/
namespace Mefsc.L4

open L1 L1.SessionEncWrapper L2 L3
open Proc hiding ret recv send act iter bind

/-! ## The stream behind header and salt -/

/-- `prefix` after a prefix frame. -/
def prefixAfter (A : Aead) (rx : Bytes) (w : SessionEncWrapper) (p : Int) : Int :=
  i32Dec (w.unwrap A rx 4 (i32Enc p) 0).decrypted_data

inductive Ends (A : Aead) (rx : Bytes) : Int → Bytes → List Bytes → Prop where
  | last {p : Int} {inp r r' b : Bytes} {w : SessionEncWrapper} (hw : takeFrame inp = some (w, r))
      (hb : takeBlob FILE_ENCRYPTED_CHUNK_SIZE r = some (b, r'))
      (he : prefixAfter A rx w p = END_CHUNK) : Ends A rx p inp [b]
  | more {p : Int} {inp r r' b : Bytes} {w : SessionEncWrapper} {bs : List Bytes}
      (hw : takeFrame inp = some (w, r)) (hb : takeBlob FILE_ENCRYPTED_CHUNK_SIZE r = some (b, r'))
      (he : prefixAfter A rx w p ≠ END_CHUNK) (h : Ends A rx (prefixAfter A rx w p) r' bs) :
      Ends A rx p inp (b :: bs)

theorem Ends.ne_nil {A : Aead} {rx inp : Bytes} {p : Int} {bs : List Bytes}
    (h : Ends A rx p inp bs) : bs ≠ [] := by
  cases h <;> simp

section
variable {C : ClientEnv} {act : Nat}

/-- What one round does on any stream. -/
theorem pullRound_cases {j : Nat} {p : Int} {state : C.na.ss.State} {pub : List (Bytes × Bytes)}
    {st : ClientState} {inp : Bytes} {e : Bool} {h : List (Ev Role)} {os : List (Option Nat)}
    {x : C.Pulling ⊕ Int × List (Bytes × Bytes)} {w1 : World ClientState Role}
    (hx : Runs (C.pullRound act (j, p, state, pub)) ⟨st, inp, e, h, os⟩ x w1) :
    ∃ rest evs, w1 = ⟨st, rest, e, h ++ evs, os⟩ ∧
      (x = .inr (1, pub) ∨ x = .inr (2, pub) ∨ ∃ w r b state' m t, takeFrame inp = some (w, r) ∧
        takeBlob FILE_ENCRYPTED_CHUNK_SIZE r = some (b, rest) ∧
        C.na.ss.pull state b = some (state', m, t) ∧
        x = if prefixAfter C.na.aead C.client_rx w p ≠ END_CHUNK then
            .inl (j + 1, prefixAfter C.na.aead C.client_rx w p, state', pub ++ [(b, m)])
          else .inr (0, pub ++ [(b, m)])) := by
  unfold ClientEnv.pullRound at hx
  rw [runs_bind] at hx
  obtain ⟨w, w2, h1, hx⟩ := hx
  obtain ⟨r, evs1, rfl, hw⟩ := ofSock_cases h1
  rw [runs_bind] at hx
  obtain ⟨o, w3, h2, hx⟩ := hx
  obtain ⟨rest, evs2, rfl, hb⟩ := recvRawBlob_cases h2
  rcases hb with ⟨rfl, -⟩ | ⟨b, rfl, hb⟩
  · obtain ⟨rfl, rfl⟩ := (runs_pure _ _ _ _).mp hx
    exact ⟨rest, evs1 ++ evs2, by rw [List.append_assoc], .inl rfl⟩
  · simp only at hx
    cases hp : C.na.ss.pull state b with
    | none =>
      rw [hp] at hx
      obtain ⟨rfl, rfl⟩ := (runs_pure _ _ _ _).mp hx
      exact ⟨rest, evs1 ++ evs2, by rw [List.append_assoc], .inr (.inl rfl)⟩
    | some y =>
      obtain ⟨state', m, t⟩ := y
      rw [hp] at hx
      -- a closed stream has no blob left
      rcases hw with hw | ⟨-, -, -, rfl⟩
      · obtain ⟨hx, hw1⟩ := (runs_ite_pure _ _ _ _ _ _).mp hx
        exact ⟨rest, evs1 ++ evs2, by rw [hw1, List.append_assoc],
          .inr (.inr ⟨w, r, b, state', m, t, hw, hb, hp, hx⟩)⟩
      · simp [takeBlob] at hb

/-- A pulling loop that returns 0 has taken the blobs up to the end of the
stream, and all of them were accepted. -/
theorem pullLoop_zero {j : Nat} {p : Int} {state : C.na.ss.State} {pub out : List (Bytes × Bytes)}
    {st : ClientState} {inp : Bytes} {e : Bool} {h : List (Ev Role)} {w' : World ClientState Role}
    (hx : Runs (loop (C.pullRound act) (j, p, state, pub)) ⟨st, inp, e, h, []⟩ (0, out) w') :
    ∃ bs ts rest evs, Ends C.na.aead C.client_rx p inp bs ∧ pullAll C.na.ss state bs = some ts ∧
      out = pub ++ bs.zip (ts.map Prod.fst) ∧ w' = ⟨st, rest, e, h ++ evs, []⟩ := by
  -- the induction is over the rounds of the loop, from the last one back
  refine Runs.loop_rec (P := fun g w x w' => ∀ st inp e h, w = ⟨st, inp, e, h, []⟩ → x.1 = 0 →
    ∃ bs ts rest evs, Ends C.na.aead C.client_rx g.2.1 inp bs ∧
      pullAll C.na.ss g.2.2.1 bs = some ts ∧ x.2 = g.2.2.2 ++ bs.zip (ts.map Prod.fst) ∧
      w' = ⟨st, rest, e, h ++ evs, []⟩) ?_ ?_ hx _ _ _ _ rfl rfl
  · rintro ⟨j, p, state, pub⟩ w ⟨ret, out⟩ w' hr st inp e h rfl h0
    obtain rfl : ret = 0 := h0
    obtain ⟨rest, evs, rfl, hc⟩ := pullRound_cases hr
    rcases hc with hc | hc | ⟨w, r, b, state', m, t, hw, hb, hp, hc⟩
    · simp at hc
    · simp at hc
    · by_cases he : prefixAfter C.na.aead C.client_rx w p = END_CHUNK
      · simp only [he, ne_eq, not_true_eq_false, if_false, Sum.inr.injEq, Prod.mk.injEq] at hc
        refine ⟨[b], [(m, t)], rest, evs, .last hw hb he, ?_, hc.2, rfl⟩
        simp [pullAll, hp]
      · simp [he] at hc
  · rintro ⟨j, p, state, pub⟩ w ⟨j', p', state', pub'⟩ w1 ⟨ret, out⟩ w' hr ih st inp e h rfl h0
    obtain ⟨rest, evs, rfl, hc⟩ := pullRound_cases hr
    rcases hc with hc | hc | ⟨w, r, b, state'', m, t, hw, hb, hp, hc⟩
    · simp at hc
    · simp at hc
    · by_cases he : prefixAfter C.na.aead C.client_rx w p = END_CHUNK
      · simp [he] at hc
      · simp only [ne_eq, he, not_false_eq_true, if_true, Sum.inl.injEq, Prod.mk.injEq] at hc
        obtain ⟨rfl, rfl, rfl, rfl⟩ := hc
        obtain ⟨bs, ts, rest', evs', hE, hts, hout, rfl⟩ := ih _ _ _ _ rfl h0
        refine ⟨b :: bs, (m, t) :: ts, rest', evs ++ evs', .more hw hb he hE, ?_, ?_, ?_⟩
        · simp [pullAll, hp, hts]
        · simpa using hout
        · rw [List.append_assoc]

variable (act) in
theorem runs_pullRound_take {inp r rest b : Bytes} {w : SessionEncWrapper}
    (hw : takeFrame inp = some (w, r)) (hb : takeBlob FILE_ENCRYPTED_CHUNK_SIZE r = some (b, rest))
    {state state' : C.na.ss.State} {m : Bytes} {t : UInt8}
    (hp : C.na.ss.pull state b = some (state', m, t)) (j : Nat) (p : Int) (pub : List (Bytes × Bytes))
    (st : ClientState) (e : Bool) (h : List (Ev Role)) :
    ∃ evs, Runs (C.pullRound act (j, p, state, pub)) ⟨st, inp, e, h, []⟩
      (if prefixAfter C.na.aead C.client_rx w p ≠ END_CHUNK then
          .inl (j + 1, prefixAfter C.na.aead C.client_rx w p, state', pub ++ [(b, m)])
        else .inr (0, pub ++ [(b, m)])) ⟨st, rest, e, h ++ evs, []⟩ := by
  obtain ⟨evs1, h1⟩ := runs_ofSock_take st e h [] (⟨act, .chunkPrefix j⟩ : Role) hw
  obtain ⟨evs2, h2⟩ := runs_recvRawBlob_take st e (h ++ evs1) [] (⟨act, .chunk j⟩ : Role) hb
  refine ⟨evs1 ++ evs2, Runs.bind h1 (Runs.bind h2 ?_)⟩
  simp only [hp]
  rw [← List.append_assoc]
  exact (runs_ite_pure _ _ _ _ _ _).mpr ⟨rfl, rfl⟩

variable (act) in
/-- The other way round: it takes all of them if they are accepted. -/
theorem runs_pullLoop_ends {p : Int} {inp : Bytes} {bs : List Bytes}
    (hE : Ends C.na.aead C.client_rx p inp bs) {state : C.na.ss.State} {ts : List (Bytes × UInt8)}
    (hts : pullAll C.na.ss state bs = some ts) (j : Nat) (pub : List (Bytes × Bytes)) (st : ClientState)
    (e : Bool) (h : List (Ev Role)) :
    ∃ rest evs, Runs (loop (C.pullRound act) (j, p, state, pub)) ⟨st, inp, e, h, []⟩
      (0, pub ++ bs.zip (ts.map Prod.fst)) ⟨st, rest, e, h ++ evs, []⟩ := by
  induction hE generalizing state ts j pub h with
  | @last p inp r r' b w hw hb he =>
    obtain ⟨state', m, t, ts', hp, hnil, rfl⟩ := pullAll_cons hts
    obtain rfl : [] = ts' := by simpa [pullAll] using hnil
    obtain ⟨evs, hr⟩ := runs_pullRound_take act hw hb hp j p pub st e h
    refine ⟨r', evs, (runs_loop _ _ _ _ _).mpr ⟨_, _, hr, ?_⟩⟩
    simp [he]
  | @more p inp r r' b w bs hw hb he _ ih =>
    obtain ⟨state', m, t, ts', hp, hts', rfl⟩ := pullAll_cons hts
    obtain ⟨evs, hr⟩ := runs_pullRound_take act hw hb hp j p pub st e h
    obtain ⟨rest, evs', hloop⟩ := ih hts' (j + 1) (pub ++ [(b, m)]) (h ++ evs)
    refine ⟨rest, evs ++ evs', (runs_loop _ _ _ _ _).mpr ⟨_, _, hr, ?_⟩⟩
    simpa [he] using hloop

/-! ## Header and salt -/

/-- What `init_read` gets from a stream when it returns 0: header, salt and
the rest of the stream. -/
def startOf (A : Aead) (rx hbuf sbuf inp : Bytes) : Option (Bytes × Bytes × Bytes) :=
  match takeFrame inp with
  | none => none
  | some (header_wrap, r) =>
    let h := header_wrap.unwrap A rx STREAM_HEADERBYTES hbuf 0
    if h.ret ≠ 0 then none
    else
      match takeFrame r with
      | none => none
      | some (salt_wrap, r') =>
        let s := salt_wrap.unwrap A rx PWHASH_SALTBYTES sbuf 0
        if s.ret ≠ 0 then none else some (h.decrypted_data, s.decrypted_data, r')

theorem initRead_ok {hbuf sbuf inp header salt : Bytes} {st : ClientState} {e : Bool} {h : List (Ev Role)}
    {os : List (Option Nat)} {w' : World ClientState Role}
    (hx : Runs (C.initRead act hbuf sbuf) ⟨st, inp, e, h, os⟩ (.ok (header, salt)) w') :
    ∃ rest evs, w' = ⟨st, rest, e, h ++ evs, os⟩ ∧
      startOf C.na.aead C.client_rx hbuf sbuf inp = some (header, salt, rest) := by
  unfold ClientEnv.initRead at hx
  rw [runs_bind] at hx
  obtain ⟨hw, w1, h1, hx⟩ := hx
  obtain ⟨r, evs1, rfl, hf⟩ := ofSock_cases h1
  simp only at hx
  split at hx
  · simp at hx
  · rename_i hret
    rcases hf with hf | ⟨-, -, hc, -⟩
    · rw [runs_bind] at hx
      obtain ⟨sw, w2, h2, hx⟩ := hx
      obtain ⟨r', evs2, rfl, sf⟩ := ofSock_cases h2
      split at hx
      · simp at hx
      · rename_i sret
        rcases sf with sf | ⟨-, -, hc, -⟩
        · simp only [runs_pure, Except.ok.injEq, Prod.mk.injEq] at hx
          obtain ⟨⟨rfl, rfl⟩, rfl⟩ := hx
          exact ⟨r', evs1 ++ evs2, by rw [List.append_assoc],
            by simp only [startOf, hf, sf, hret, sret, if_false]⟩
        · exact absurd (unwrap_corrupted _ _ hc _ _ _) sret
    · exact absurd (unwrap_corrupted _ _ hc _ _ _) hret

variable (act) in
theorem runs_initRead_start {hbuf sbuf inp header salt rest : Bytes}
    (hs : startOf C.na.aead C.client_rx hbuf sbuf inp = some (header, salt, rest)) (st : ClientState)
    (e : Bool) (h : List (Ev Role)) :
    ∃ evs, Runs (C.initRead act hbuf sbuf) ⟨st, inp, e, h, []⟩ (.ok (header, salt))
      ⟨st, rest, e, h ++ evs, []⟩ := by
  unfold startOf at hs
  split at hs
  · cases hs
  · rename_i hw r h1
    simp only at hs
    split at hs
    · cases hs
    · rename_i hret
      split at hs
      · cases hs
      · rename_i sw r' h2
        split at hs
        · cases hs
        · rename_i sret
          simp only [Option.some.injEq, Prod.mk.injEq] at hs
          obtain ⟨rfl, rfl, rfl⟩ := hs
          obtain ⟨evs1, r1⟩ := runs_ofSock_take st e h [] (⟨act, .header⟩ : Role) h1
          obtain ⟨evs2, r2⟩ := runs_ofSock_take st e (h ++ evs1) [] (⟨act, .salt⟩ : Role) h2
          refine ⟨evs1 ++ evs2, Runs.bind r1 ?_⟩
          simp only [hret, if_false]
          refine Runs.bind r2 ?_
          simp only [sret, if_false]
          rw [← List.append_assoc]
          exact (runs_pure _ _ _ _).mpr ⟨rfl, rfl⟩

/-- Header, salt and the rest of the stream, for a client in state `cst`. -/
def start (C : ClientEnv) (cst : ClientState) (inp : Bytes) : Option (Bytes × Bytes × Bytes) :=
  startOf C.na.aead C.client_rx (fit STREAM_HEADERBYTES (C.host.stack cst.locals))
    (fit PWHASH_SALTBYTES (C.host.stack (cst.locals + 1))) inp

/-- A download that returns 0, taken apart. -/
theorem decrypt_zero {inp : Bytes} {cst : ClientState} {e : Bool} {h : List (Ev Role)}
    {w' : World ClientState Role}
    (hx : Runs (C.decryptAndReadFromServer act) ⟨cst, inp, e, h, []⟩ 0 w') :
    C.host.oom cst.hashes = false ∧ ∃ header salt rest state bs ts,
      start C cst inp = some (header, salt, rest) ∧
      C.na.ss.initPull header (C.na.pwhash C.password salt) = some state ∧
      Ends C.na.aead C.client_rx END_CHUNK rest bs ∧ pullAll C.na.ss state bs = some ts ∧
      w'.st = ClientEnv.downloaded (bs.zip (ts.map Prod.fst)) cst := by
  unfold ClientEnv.decryptAndReadFromServer at hx
  rw [runs_bind] at hx
  obtain ⟨hbuf, w1, h1, hx⟩ := hx
  obtain ⟨rfl, rfl⟩ := (runs_modifyGet _ _ _ _).mp h1
  rw [runs_bind] at hx
  obtain ⟨sbuf, w2, h2, hx⟩ := hx
  obtain ⟨rfl, rfl⟩ := (runs_modifyGet _ _ _ _).mp h2
  rw [runs_bind] at hx
  obtain ⟨x, w3, h3, hx⟩ := hx
  cases x with
  | error c => simp at hx
  | ok x =>
    obtain ⟨header, salt⟩ := x
    obtain ⟨rest, evs, rfl, hs⟩ := initRead_ok h3
    simp only at hx
    rw [runs_bind] at hx
    obtain ⟨k, w4, h4, hx⟩ := hx
    obtain ⟨rfl, rfl⟩ := (runs_modifyGet _ _ _ _).mp h4
    cases hoom : C.host.oom cst.hashes with
    | true => simp [hoom] at hx
    | false =>
      simp only [hoom, Bool.false_eq_true, if_false] at hx
      cases hi : C.na.ss.initPull header (C.na.pwhash C.password salt) with
      | none => simp [hi] at hx
      | some state =>
        simp only [hi] at hx
        rw [runs_bind] at hx
        obtain ⟨⟨status, out⟩, w5, h5, hx⟩ := hx
        rw [runs_bind] at hx
        obtain ⟨_, w6, h6, hx⟩ := hx
        rw [runs_bind] at hx
        obtain ⟨_, w7, h7, hx⟩ := hx
        obtain ⟨rfl, rfl⟩ := (runs_pure _ _ _ _).mp hx
        obtain ⟨bs, ts, rest', evs', hE, hts, rfl, rfl⟩ := pullLoop_zero h5
        refine ⟨rfl, header, salt, rest, state, bs, ts, hs, hi, hE, hts, ?_⟩
        rw [(runs_modify _ _ _ _).mp h7, (runs_modify _ _ _ _).mp h6]
        simp [writerOutput, ClientEnv.downloaded]

variable (act) in
theorem runs_decrypt_ends {inp header salt rest : Bytes} {cst : ClientState} {state : C.na.ss.State}
    {bs : List Bytes} {ts : List (Bytes × UInt8)} (hoom : C.host.oom cst.hashes = false)
    (hs : start C cst inp = some (header, salt, rest))
    (hi : C.na.ss.initPull header (C.na.pwhash C.password salt) = some state)
    (hE : Ends C.na.aead C.client_rx END_CHUNK rest bs) (hts : pullAll C.na.ss state bs = some ts)
    (e : Bool) (h : List (Ev Role)) :
    ∃ rest' evs, Runs (C.decryptAndReadFromServer act) ⟨cst, inp, e, h, []⟩ 0
      ⟨ClientEnv.downloaded (bs.zip (ts.map Prod.fst)) cst, rest', e, h ++ evs, []⟩ := by
  obtain ⟨evs1, r1⟩ := runs_initRead_start act hs { cst with locals := cst.locals + 2 } e h
  obtain ⟨rest', evs2, r2⟩ := runs_pullLoop_ends act hE hts 0 []
    { cst with locals := cst.locals + 2, hashes := cst.hashes + 1 } e (h ++ evs1)
  refine ⟨rest', evs1 ++ evs2, Runs.modifyGet_bind (Runs.modifyGet_bind ?_)⟩
  refine Runs.bind r1 ?_
  refine Runs.modifyGet_bind ?_
  simp only [hoom, Bool.false_eq_true, if_false, hi]
  refine Runs.bind r2 ?_
  refine Runs.modify_bind ?_
  refine Runs.modify_bind ?_
  simp [writerOutput, ClientEnv.downloaded]

end

/-! ## Complete downloads -/

/-- The chunks accepted are all those of one upload, and a fresh output file
holds its content. -/
def Complete (na : Sodium) (U : Upload → Prop) (cst st' : ClientState) : Prop :=
  ∃ u, U u ∧ st'.accepted = u.chunks na ∧ ∀ p, cst.file = some p →
    cst.fs.lookup p = some (.file []) → st'.fs.lookup p = some (.file u.content)

/-- The stream has the header and salt of an upload and then ends, with
`END_CHUNK` in effect, before the last of its chunks. -/
def EarlyEnd (C : ClientEnv) (U : Upload → Prop) (cst : ClientState) (inp : Bytes) : Prop :=
  C.host.oom cst.hashes = false ∧ ∃ header salt rest bs u,
    start C cst inp = some (header, salt, rest) ∧ U u ∧ u.header C.na = header ∧
    u.key C.na = C.na.pwhash C.password salt ∧ Ends C.na.aead C.client_rx END_CHUNK rest bs ∧
    bs <+: u.chunks C.na ∧ bs ≠ u.chunks C.na

theorem pullAll_length {S : SecretStream} {s : S.State} {cs : List Bytes} {ts : List (Bytes × UInt8)}
    (h : pullAll S s cs = some ts) : ts.length = cs.length := by
  induction cs generalizing s ts with
  | nil =>
    obtain rfl : [] = ts := by simpa [pullAll] using h
    rfl
  | cons c cs ih =>
    obtain ⟨s', m, t, ts', hp, h', rfl⟩ := pullAll_cons h
    simp [ih h']

/-- What is accepted is accepted up to any point. -/
theorem pullAll_append_left {S : SecretStream} {s : S.State} {cs ds : List Bytes}
    {ts : List (Bytes × UInt8)} (h : pullAll S s (cs ++ ds) = some ts) :
    ∃ ts', pullAll S s cs = some ts' := by
  induction cs generalizing s ts with
  | nil => exact ⟨[], rfl⟩
  | cons c cs ih =>
    obtain ⟨s', m, t, ts', hp, h', rfl⟩ := pullAll_cons h
    obtain ⟨ts'', h''⟩ := ih h'
    exact ⟨(m, t) :: ts'', by simp [pullAll, hp, h'']⟩

theorem downloaded_accepted {S : SecretStream} {s : S.State} {bs : List Bytes}
    {ts : List (Bytes × UInt8)} (h : pullAll S s bs = some ts) (cst : ClientState) :
    (ClientEnv.downloaded (bs.zip (ts.map Prod.fst)) cst).accepted = bs := by
  have hl := pullAll_length h
  exact List.map_fst_zip (by simp [hl])

/-- A download is complete whenever it returns 0, exactly if the stream does
not end inside an upload. -/
theorem download_complete_iff {C : ClientEnv} {U : Upload → Prop} (hI : Ideal C.na U) (act : Nat)
    (cst : ClientState) (inp : Bytes) (e : Bool) (h : List (Ev Role)) :
    (∀ w', Runs (C.decryptAndReadFromServer act) ⟨cst, inp, e, h, []⟩ 0 w' →
      Complete C.na U cst w'.st) ↔ ¬ EarlyEnd C U cst inp := by
  constructor
  · rintro hall ⟨hoom, header, salt, rest, bs, u, hs, hu, rfl, hk, hE, hpre, hne⟩
    obtain ⟨s, ts, hi, hts, -⟩ := hI.genuine u hu
    obtain ⟨ds, hds⟩ := hpre
    rw [← hds] at hts
    obtain ⟨ts', hts'⟩ := pullAll_append_left hts
    rw [hk] at hi
    obtain ⟨rest', evs, hr⟩ := runs_decrypt_ends act hoom hs hi hE hts' e h
    obtain ⟨v, hv, hacc, -⟩ := hall _ hr
    -- the chunks accepted would be those of another upload, which end in a short one
    rw [downloaded_accepted hts'] at hacc
    refine hne ?_
    rw [hacc]
    exact (v.chunks_blocky C.na).eq_of_begins (u.chunks_blocky C.na) ⟨ds, by rw [← hacc, hds]⟩
  · intro hearly w' hr
    obtain ⟨hoom, header, salt, rest, s, bs, ts, hs, hi, hE, hts, hst⟩ := decrypt_zero hr
    obtain ⟨u, hu, hhead, hkey, hpre⟩ := hI.only _ _ _ _ _ hi hts hE.ne_nil
    have hall : bs = u.chunks C.na := by
      by_contra hne
      exact hearly ⟨hoom, header, salt, rest, bs, u, hs, hu, hhead, hkey, hE, hpre, hne⟩
    refine ⟨u, hu, by rw [hst, downloaded_accepted hts, hall], fun p hf hp => ?_⟩
    obtain ⟨s', ts', hi', hts', hc⟩ := hI.genuine u hu
    rw [hhead, hkey, hi] at hi'
    obtain rfl := Option.some.inj hi'
    rw [← hall, hts] at hts'
    obtain rfl := Option.some.inj hts'
    have hl := pullAll_length hts
    rw [hst, downloaded_lookup hf hp, List.map_snd_zip (by simp [hl]), hc, cut_flatten chunk_size_pos,
      List.nil_append]

/-- What a server that stops after `cs` sends of the upload `u`. -/
def cutStream (C : ClientEnv) (u : Upload) (cs : List Bytes) : Bytes :=
  sent (fileEvs C.na.aead C.client_rx 0 [] (u.header C.na) u.salt cs)

/-- The client takes any first part of an upload for the whole. -/
theorem runs_cutStream {C : ClientEnv} {U : Upload → Prop} (hI : Ideal C.na U) {u : Upload} (hu : U u)
    (hpw : u.password = C.password) (cst : ClientState) (hoom : C.host.oom cst.hashes = false)
    {cs : List Bytes} (hne : cs ≠ []) (hcs : cs <+: u.chunks C.na) :
    ∃ w', Runs (C.decryptAndReadFromServer 0) ⟨cst, cutStream C u cs, false, [], []⟩ 0 w' ∧
      w'.st.accepted = cs := by
  obtain ⟨s, ts, hi, hts, -⟩ := hI.genuine u hu
  obtain ⟨ds, hds⟩ := id hcs
  rw [← hds] at hts
  obtain ⟨ts', hts'⟩ := pullAll_append_left hts
  obtain ⟨h0, hacc, -⟩ := pulled_of_pullAll hts'
  have hle : ∀ c ∈ cs, c.length ≤ FILE_ENCRYPTED_CHUNK_SIZE :=
    fun c hc => (u.chunks_blocky C.na).le c (hcs.subset hc)
  rw [Upload.key, hpw] at hi
  obtain ⟨evs, rest, hr, -⟩ := ClientEnv.runs_decryptAndRead (C := C) cst [] false [] 0 []
    (C.na.ss.header_length _ _) u.salt_length hne hle hoom hi
  rw [h0, List.append_nil] at hr
  exact ⟨_, hr, hacc⟩

/-- An upload of one chunk: no stream ends inside it. -/
theorem download_complete_iff_alice :
    ∃ w', Runs ((loggedClient aliceUpload).decryptAndReadFromServer 0)
        ⟨aliceOut, cutStream (loggedClient aliceUpload) aliceUpload
          (aliceUpload.chunks (loggedSodium aliceUpload)), false, [], []⟩ 0 w' ∧
      Complete (loggedSodium aliceUpload) (· = aliceUpload) aliceOut w'.st := by
  have hI : Ideal (loggedClient aliceUpload).na (· = aliceUpload) := loggedSodium_ideal aliceUpload
  obtain ⟨w', hr, -⟩ := runs_cutStream hI rfl rfl aliceOut rfl
    (aliceUpload.chunks_blocky (loggedSodium aliceUpload)).ne_nil (List.prefix_refl _)
  refine ⟨w', hr, (download_complete_iff hI 0 aliceOut _ false []).mpr ?_ w' hr⟩
  rintro ⟨-, header, salt, rest, bs, u, -, rfl, -, -, hE, hpre, hne⟩
  obtain ⟨c, hc⟩ : ∃ c, aliceUpload.chunks (loggedSodium aliceUpload) = [c] := by
    rw [loggedSodium_chunks, aliceUpload, cut_short chunk_size_pos (by decide)]
    exact ⟨_, rfl⟩
  have hlen := hpre.length_le
  have hpos := List.length_pos_iff.mpr hE.ne_nil
  refine hne (hpre.eq_of_length ?_)
  rw [show (loggedClient aliceUpload).na = loggedSodium aliceUpload from rfl, hc] at hlen ⊢
  simp only [List.length_singleton] at hlen ⊢
  omega

/-- An upload of one byte more than a chunk. -/
def zerosUpload : Upload := { aliceUpload with content := List.replicate (CHUNK_SIZE + 1) 0 }

/-- Its first chunk, sent with `END_CHUNK`, is reported as a complete download. -/
theorem download_cut_short :
    Ideal (loggedClient zerosUpload).na (· = zerosUpload) ∧
    ∃ c w', [c] <+: zerosUpload.chunks (loggedClient zerosUpload).na ∧
      Runs ((loggedClient zerosUpload).decryptAndReadFromServer 0)
        ⟨aliceOut, cutStream (loggedClient zerosUpload) zerosUpload [c], false, [], []⟩ 0 w' ∧
      ¬ Complete (loggedClient zerosUpload).na (· = zerosUpload) aliceOut w'.st := by
  have hI : Ideal (loggedClient zerosUpload).na (· = zerosUpload) := loggedSodium_ideal zerosUpload
  obtain ⟨c, d, hcd⟩ : ∃ c d, zerosUpload.chunks (loggedClient zerosUpload).na = [c, d] := by
    have hlen : zerosUpload.content.length = CHUNK_SIZE + 1 := List.length_replicate
    have hch : zerosUpload.chunks (loggedClient zerosUpload).na = _ := loggedSodium_chunks zerosUpload
    have hcut : cut CHUNK_SIZE zerosUpload.content =
        [zerosUpload.content.take CHUNK_SIZE, zerosUpload.content.drop CHUNK_SIZE] := by
      rw [cut_long chunk_size_pos (by omega),
        cut_short chunk_size_pos (by rw [List.length_drop, hlen]; decide)]
    rw [hcut] at hch
    exact ⟨_, _, hch⟩
  have hpre : [c] <+: zerosUpload.chunks (loggedClient zerosUpload).na := by rw [hcd]; exact ⟨[d], rfl⟩
  obtain ⟨w', hr, hacc⟩ := runs_cutStream hI rfl rfl aliceOut rfl (by simp) hpre
  refine ⟨hI, c, w', hpre, hr, ?_⟩
  rintro ⟨u, rfl, hall, -⟩
  rw [hacc, hcd] at hall
  simp at hall

end Mefsc.L4
