import Mefsc.L2Machine.Feed
import Mefsc.L4App.Complete
import Mefsc.L4App.Reported

/-!
# Downloads as the client writes them

`decrypt_and_read_from_server` decrypts each chunk into a slot of the writer
thread's buffer and publishes it when `pull` accepted it; `RFFS_Handler` opens the
output before it knows anything about the request, and does not look at the
result.

* `OnlyPushed`: the secret stream as an ideal, relative to the streams that were
  pushed.
* `download_writes_authenticated`: whatever the server sends, whatever comes back
  and however the threads interleave, the bytes written are the first messages of
  one pushed stream.
* `failed_download_unreported`: a download that fails is not reported, and the
  output is gone.
-/
namespace Mefsc.L4

open L1 L1.SessionEncWrapper L2 L3
open Proc hiding ret recv send act iter bind

/-! ## Streams that were pushed -/

def pushItems (S : SecretStream) (s : S.State) : List (Bytes × UInt8) → List Bytes
  | [] => []
  | (m, t) :: xs => (S.push s m t).2 :: pushItems S (S.push s m t).1 xs

/-- One use of the push state: its randomness and key, and the messages with
their tags. -/
structure Pushed where
  r : Bytes
  key : Bytes
  items : List (Bytes × UInt8)

namespace Pushed

variable (S : SecretStream) (x : Pushed)

def header : Bytes := (S.initPush x.r x.key).2

def chunks : List Bytes := pushItems S (S.initPush x.r x.key).1 x.items

end Pushed

/-- Whatever is accepted under some header and key begins a stream that was
pushed with that header under that key, and gives its messages. -/
def OnlyPushed (S : SecretStream) (P : Pushed → Prop) : Prop :=
  ∀ h k s cs ts, S.initPull h k = some s → pullAll S s cs = some ts → cs ≠ [] →
    ∃ x, P x ∧ x.header S = h ∧ x.key = k ∧ cs <+: x.chunks S ∧ ts <+: x.items

/-! ## The pulling loop, however it ends -/

/-- The first `n` blobs of a stream, each behind the frame of its prefix. -/
def blobsIn : Nat → Bytes → List Bytes
  | 0, _ => []
  | n + 1, inp =>
    match takeFrame inp with
    | none => []
    | some (_, r) =>
      match takeBlob FILE_ENCRYPTED_CHUNK_SIZE r with
      | none => []
      | some (b, r') => b :: blobsIn n r'

theorem blobsIn_cons {inp r r' b : Bytes} {w : SessionEncWrapper} (hw : takeFrame inp = some (w, r))
    (hb : takeBlob FILE_ENCRYPTED_CHUNK_SIZE r = some (b, r')) (n : Nat) :
    blobsIn (n + 1) inp = b :: blobsIn n r' := by
  simp only [blobsIn, hw, hb]

theorem takeBlob_length {cap : Nat} {inp b rest : Bytes} (h : takeBlob cap inp = some (b, rest)) :
    b.length ≤ cap := by
  unfold takeBlob at h
  split at h
  · cases h
  split at h
  · cases h
  rename_i hcap
  split at h
  · cases h
  · simp only [Option.some.injEq, Prod.mk.injEq] at h
    obtain ⟨rfl, -⟩ := h
    rw [List.length_take]
    omega

section
variable {C : ClientEnv} {act : Nat}

/-- The chunks published are the first ones to arrive, they were accepted one
after the other, and each fits a slot. -/
theorem pullLoop_any {j : Nat} {p : Int} {state : C.na.ss.State} {pub : List (Bytes × Bytes)}
    {st : ClientState} {inp : Bytes} {e : Bool} {h : List (Ev Role)} {os : List (Option Nat)}
    {x : Int × List (Bytes × Bytes)} {w' : World ClientState Role}
    (hx : Runs (loop (C.pullRound act) (j, p, state, pub)) ⟨st, inp, e, h, os⟩ x w') :
    w'.st = st ∧ ∃ bs ts, bs = blobsIn bs.length inp ∧ pullAll C.na.ss state bs = some ts ∧
      x.2 = pub ++ bs.zip (ts.map Prod.fst) ∧ ∀ b ∈ bs, b.length ≤ FILE_ENCRYPTED_CHUNK_SIZE := by
  refine Runs.loop_rec (P := fun g w x w' => ∀ st inp e h, w = ⟨st, inp, e, h, os⟩ →
    w'.st = st ∧ ∃ bs ts, bs = blobsIn bs.length inp ∧ pullAll C.na.ss g.2.2.1 bs = some ts ∧
      x.2 = g.2.2.2 ++ bs.zip (ts.map Prod.fst) ∧ ∀ b ∈ bs, b.length ≤ FILE_ENCRYPTED_CHUNK_SIZE)
    ?_ ?_ hx _ _ _ _ rfl
  · rintro ⟨j, p, state, pub⟩ w ⟨ret, out⟩ w' hr st inp e h rfl
    obtain ⟨rest, evs, rfl, hc⟩ := pullRound_cases hr
    have hstop : ∀ r, (ret, out) = (r, pub) → ∃ bs ts, bs = blobsIn bs.length inp ∧
        pullAll C.na.ss state bs = some ts ∧ out = pub ++ bs.zip (ts.map Prod.fst) ∧
        ∀ b ∈ bs, b.length ≤ FILE_ENCRYPTED_CHUNK_SIZE := by
      intro r hc
      obtain ⟨-, rfl⟩ := Prod.mk.inj hc
      exact ⟨[], [], rfl, rfl, by simp, by simp⟩
    rcases hc with hc | hc | ⟨w, r, b, state', m, t, hw, hb, hp, hc⟩
    · exact ⟨rfl, hstop 1 (Sum.inr.inj hc)⟩
    · exact ⟨rfl, hstop 2 (Sum.inr.inj hc)⟩
    · by_cases he : prefixAfter C.na.aead C.client_rx w p = END_CHUNK
      · simp only [he, ne_eq, not_true_eq_false, if_false, Sum.inr.injEq, Prod.mk.injEq] at hc
        refine ⟨rfl, [b], [(m, t)], (blobsIn_cons hw hb 0).symm, by simp [pullAll, hp], hc.2, ?_⟩
        simpa using takeBlob_length hb
      · simp [he] at hc
  · rintro ⟨j, p, state, pub⟩ w ⟨j', p', state', pub'⟩ w1 ⟨ret, out⟩ w' hr ih st inp e h rfl
    obtain ⟨rest, evs, rfl, hc⟩ := pullRound_cases hr
    rcases hc with hc | hc | ⟨w, r, b, state'', m, t, hw, hb, hp, hc⟩
    · simp at hc
    · simp at hc
    · by_cases he : prefixAfter C.na.aead C.client_rx w p = END_CHUNK
      · simp [he] at hc
      · simp only [ne_eq, he, not_false_eq_true, if_true, Sum.inl.injEq, Prod.mk.injEq] at hc
        obtain ⟨rfl, rfl, rfl, rfl⟩ := hc
        obtain ⟨hst, bs, ts, hbs, hts, hout, hle⟩ := ih _ _ _ _ rfl
        refine ⟨hst, b :: bs, (m, t) :: ts, ?_, by simp [pullAll, hp, hts], by simpa using hout, ?_⟩
        · rw [List.length_cons, blobsIn_cons hw hb, ← hbs]
        intro c hc
        rcases List.mem_cons.mp hc with rfl | hc
        · exact takeBlob_length hb
        · exact hle c hc

/-- `init_read` has no state of its own. -/
theorem moves_initRead (act : Nat) (hbuf sbuf : Bytes) : Moves Eq (C.initRead act hbuf sbuf) := by
  have hP : Closed (fun {_} (p : Client _) => Moves Eq p) := closed_moves Eq.refl Eq.trans
  refine hP.bind (closed_ofSock hP _) fun w => ?_
  refine Closed.ite (P := fun {_} p => Moves Eq p) (hP.pure _) ?_
  refine hP.bind (closed_ofSock hP _) fun w => ?_
  exact Closed.ite (P := fun {_} p => Moves Eq p) (hP.pure _) (hP.pure _)

/-- A download, however it ends: nothing was written, or what the loop
published. -/
theorem decrypt_cases {inp : Bytes} {cst : ClientState} {e : Bool} {h : List (Ev Role)} {os : List (Option Nat)}
    {status : Int}
    {w' : World ClientState Role}
    (hx : Runs (C.decryptAndReadFromServer act) ⟨cst, inp, e, h, os⟩ status w') :
    (status ≠ 0 ∧ w'.st.fs = cst.fs ∧ w'.st.accepted = cst.accepted) ∨
    ∃ header salt rest state bs ts, start C cst inp = some (header, salt, rest) ∧
      C.na.ss.initPull header (C.na.pwhash C.password salt) = some state ∧
      bs = blobsIn bs.length rest ∧ pullAll C.na.ss state bs = some ts ∧
      (∀ b ∈ bs, b.length ≤ FILE_ENCRYPTED_CHUNK_SIZE) ∧
      w'.st = ClientEnv.downloaded (bs.zip (ts.map Prod.fst)) cst := by
  unfold ClientEnv.decryptAndReadFromServer at hx
  rw [runs_bind] at hx
  obtain ⟨hbuf, w1, h1, hx⟩ := hx
  obtain ⟨rfl, rfl⟩ := (runs_modifyGet _ _ _ _).mp h1
  rw [runs_bind] at hx
  obtain ⟨sbuf, w2, h2, hx⟩ := hx
  obtain ⟨rfl, rfl⟩ := (runs_modifyGet _ _ _ _).mp h2
  rw [runs_bind] at hx
  obtain ⟨x, w3, h3, hx⟩ := hx
  have hst3 := moves_initRead act _ _ _ _ _ h3
  cases x with
  | error c =>
    obtain ⟨rfl, rfl⟩ := (runs_pure _ _ _ _).mp hx
    exact .inl ⟨by decide, by rw [← hst3], by rw [← hst3]⟩
  | ok x =>
    obtain ⟨header, salt⟩ := x
    obtain ⟨rest, evs, rfl, hs⟩ := initRead_ok h3
    simp only at hx
    rw [runs_bind] at hx
    obtain ⟨k, w4, h4, hx⟩ := hx
    obtain ⟨rfl, rfl⟩ := (runs_modifyGet _ _ _ _).mp h4
    cases hoom : C.host.oom cst.hashes with
    | true =>
      simp only [hoom, if_true] at hx
      obtain ⟨rfl, rfl⟩ := (runs_pure _ _ _ _).mp hx
      exact .inl ⟨by decide, rfl, rfl⟩
    | false =>
      simp only [hoom, Bool.false_eq_true, if_false] at hx
      cases hi : C.na.ss.initPull header (C.na.pwhash C.password salt) with
      | none =>
        simp only [hi] at hx
        obtain ⟨rfl, rfl⟩ := (runs_pure _ _ _ _).mp hx
        exact .inl ⟨by decide, rfl, rfl⟩
      | some state =>
        simp only [hi] at hx
        rw [runs_bind] at hx
        obtain ⟨⟨r, out⟩, w5, h5, hx⟩ := hx
        rw [runs_bind] at hx
        obtain ⟨_, w6, h6, hx⟩ := hx
        rw [runs_bind] at hx
        obtain ⟨_, w7, h7, hx⟩ := hx
        obtain ⟨rfl, rfl⟩ := (runs_pure _ _ _ _).mp hx
        obtain ⟨hst, bs, ts, hbs, hts, hout, hle⟩ := pullLoop_any h5
        rw [List.nil_append] at hout
        refine .inr ⟨header, salt, rest, state, bs, ts, hs, hi, hbs, hts, hle, ?_⟩
        rw [(runs_modify _ _ _ _).mp h7, (runs_modify _ _ _ _).mp h6]
        simp only at hout
        simp [writerOutput, ClientEnv.downloaded, hst, hout]

end

/-! ## What is written -/

/-- What the producer publishes of `pub`: the length of the ciphertext less that of
a tag, on `size_t`, and the message it decrypted into the slot. -/
def published (pub : List (Bytes × Bytes)) : List (Nat × Bytes) :=
  pub.map fun x => (sub64 x.1.length STREAM_ABYTES, x.2)

/-- The chunks `pub` that a download published, each with its ciphertext. They are
the first blobs that arrived after the salt, as `pull` decrypted them. The lengths
are right and fit the slots, the messages are the first ones of one stream pushed
with the header received, under the key the password and the salt received give,
and they are what the writer has written when it is joined. -/
structure WritesAuthenticated (C : ClientEnv) (P : Pushed → Prop) (cst : ClientState) (inp : Bytes)
    (pub : List (Bytes × Bytes)) : Prop where
  lengths : ∀ x ∈ pub, STREAM_ABYTES ≤ x.1.length ∧ sub64 x.1.length STREAM_ABYTES = x.2.length ∧
    x.2.length ≤ FILE_ENCRYPTED_CHUNK_SIZE
  received : pub = [] ∨ ∃ header salt rest state ts, start C cst inp = some (header, salt, rest) ∧
    pub.map Prod.fst = blobsIn pub.length rest ∧
    C.na.ss.initPull header (C.na.pwhash C.password salt) = some state ∧
    pullAll C.na.ss state (pub.map Prod.fst) = some ts ∧ pub.map Prod.snd = ts.map Prod.fst
  stream : pub = [] ∨ ∃ header salt rest x j, start C cst inp = some (header, salt, rest) ∧ P x ∧
    x.header C.na.ss = header ∧ x.key = C.na.pwhash C.password salt ∧
    pub.map Prod.snd = (x.items.take j).map Prod.fst
  joined : ∀ base s, (fedLTS FILE_ENCRYPTED_CHUNK_SIZE base (published pub)).Reachable s → s.pipe.p = .joined →
    s.pipe.file = base ++ (pub.map Prod.snd).flatten

/-- Accepted chunks are as long as their messages and a tag. -/
theorem pullAll_zip_lengths {S : SecretStream} {s : S.State} {cs : List Bytes} {ts : List (Bytes × UInt8)}
    (h : pullAll S s cs = some ts) {x : Bytes × Bytes} (hx : x ∈ cs.zip (ts.map Prod.fst)) :
    x.1 ∈ cs ∧ x.1.length = x.2.length + STREAM_ABYTES := by
  induction cs generalizing s ts with
  | nil => simp at hx
  | cons c cs ih =>
    obtain ⟨s', m, t, ts', hp, h', rfl⟩ := pullAll_cons h
    simp only [List.map_cons, List.zip_cons_cons, List.mem_cons] at hx
    rcases hx with rfl | hx
    · exact ⟨List.mem_cons_self, S.pull_length _ _ _ _ _ hp⟩
    · obtain ⟨hm, hl⟩ := ih h' hx
      exact ⟨List.mem_cons_of_mem _ hm, hl⟩

theorem writesAuthenticated_of_pullAll {C : ClientEnv} {P : Pushed → Prop} (hP : OnlyPushed C.na.ss P)
    {cst : ClientState} {inp header salt rest : Bytes} {state : C.na.ss.State} {bs : List Bytes}
    {ts : List (Bytes × UInt8)} (hs : start C cst inp = some (header, salt, rest))
    (hi : C.na.ss.initPull header (C.na.pwhash C.password salt) = some state)
    (hbs : bs = blobsIn bs.length rest) (hts : pullAll C.na.ss state bs = some ts)
    (hle : ∀ b ∈ bs, b.length ≤ FILE_ENCRYPTED_CHUNK_SIZE) :
    WritesAuthenticated C P cst inp (bs.zip (ts.map Prod.fst)) := by
  have hlen : ∀ x ∈ bs.zip (ts.map Prod.fst), STREAM_ABYTES ≤ x.1.length ∧
      sub64 x.1.length STREAM_ABYTES = x.2.length ∧ x.2.length ≤ FILE_ENCRYPTED_CHUNK_SIZE := by
    intro x hx
    obtain ⟨hm, hl⟩ := pullAll_zip_lengths hts hx
    have hb := hle _ hm
    have h64 : x.1.length < 2 ^ 64 := Nat.lt_of_le_of_lt hb (by decide)
    refine ⟨by omega, ?_, by omega⟩
    rw [sub64_of_le (by omega) h64]
    omega
  have hsnd : (bs.zip (ts.map Prod.fst)).map Prod.snd = ts.map Prod.fst :=
    List.map_snd_zip (by simp [pullAll_length hts])
  have hfst : (bs.zip (ts.map Prod.fst)).map Prod.fst = bs :=
    List.map_fst_zip (by simp [pullAll_length hts])
  have hzip : (bs.zip (ts.map Prod.fst)).length = bs.length := by simp [pullAll_length hts]
  refine ⟨hlen, ?_, ?_, fun base s hr hj => ?_⟩
  · exact .inr ⟨header, salt, rest, state, ts, hs, by rw [hfst, hzip, ← hbs], hi, by rw [hfst, hts], hsnd⟩
  · by_cases hne : bs = []
    · exact .inl (by simp [hne])
    · obtain ⟨x, hx, hhead, hkey, -, hpre⟩ := hP _ _ _ _ _ hi hts hne
      refine .inr ⟨header, salt, rest, x, ts.length, hs, hx, hhead, hkey, ?_⟩
      rw [hsnd, ← List.prefix_iff_eq_take.mp hpre]
  · have hsizes : ∀ x ∈ published (bs.zip (ts.map Prod.fst)), x.1 = x.2.length := by
      intro x hx
      obtain ⟨y, hy, rfl⟩ := List.mem_map.mp hx
      exact (hlen y hy).2.1
    have hfile := fed_file hsizes hr hj
    have hmap : (published (bs.zip (ts.map Prod.fst))).map Prod.snd = (bs.zip (ts.map Prod.fst)).map Prod.snd := by
      unfold published
      rw [List.map_map]
      rfl
    rw [hmap] at hfile
    exact hfile

/-- A write of nothing. -/
theorem written_nil (cst : ClientState) (q : Path) :
    (ClientEnv.written (writerOutput []) cst).fs.lookup q = cst.fs.lookup q := by
  unfold ClientEnv.written
  cases cst.file with
  | none => rfl
  | some p =>
    simp only [FS.append, writerOutput, List.flatten_nil, List.append_nil]
    split
    · rename_i old hp
      by_cases hq : q = p
      · rw [hq, hp]
        exact AList.lookup_insert _
      · exact AList.lookup_insert_ne hq
    · rfl

/-- Nothing published. -/
theorem writesAuthenticated_nil (C : ClientEnv) (P : Pushed → Prop) (cst : ClientState) (inp : Bytes) :
    WritesAuthenticated C P cst inp [] := by
  refine ⟨by simp, .inl rfl, .inl rfl, fun base s hr hj => ?_⟩
  exact fed_file (by simp [published]) hr hj

/-- Whatever arrives and whatever is returned: what the client adds to the output
are chunks that are authentic, those it has accepted. Where it does not come to
the chunks there are none. -/
theorem download_writes_authenticated {C : ClientEnv} {P : Pushed → Prop} (hP : OnlyPushed C.na.ss P) (act : Nat)
    (cst : ClientState) (inp : Bytes) (e : Bool) (h : List (Ev Role)) (os : List (Option Nat)) {status : Int}
    {w' : World ClientState Role}
    (hx : Runs (C.decryptAndReadFromServer act) ⟨cst, inp, e, h, os⟩ status w') :
    ∃ pub, WritesAuthenticated C P cst inp pub ∧
      (w'.st.accepted = pub.map Prod.fst ∨ pub = [] ∧ w'.st.accepted = cst.accepted) ∧
      ∀ q, w'.st.fs.lookup q = (ClientEnv.written (writerOutput (pub.map Prod.snd)) cst).fs.lookup q := by
  rcases decrypt_cases hx with ⟨-, hfs, hacc⟩ | ⟨header, salt, rest, state, bs, ts, hs, hi, hbs, hts, hle, hst⟩
  · refine ⟨[], writesAuthenticated_nil C P cst inp, .inr ⟨rfl, hacc⟩, fun q => ?_⟩
    rw [hfs]
    exact (written_nil cst q).symm
  · refine ⟨_, writesAuthenticated_of_pullAll hP hs hi hbs hts hle, .inl (by rw [hst, ClientEnv.downloaded]),
      fun q => ?_⟩
    rw [hst]
    unfold ClientEnv.downloaded ClientEnv.written writerOutput
    cases cst.file <;> rfl

theorem pullAll_begins {S : SecretStream} {s : S.State} {cs ds : List Bytes} {ts us : List (Bytes × UInt8)}
    (h : pullAll S s cs = some ts) (hu : pullAll S s (cs ++ ds) = some us) : ts <+: us := by
  induction cs generalizing s ts us with
  | nil =>
    obtain rfl : [] = ts := by simpa [pullAll] using h
    exact List.nil_prefix
  | cons c cs ih =>
    obtain ⟨s', m, t, ts', hp, h', rfl⟩ := pullAll_cons h
    obtain ⟨s'', m', t', us', hp', hu', rfl⟩ := pullAll_cons hu
    rw [hp] at hp'
    obtain ⟨rfl, rfl, rfl⟩ : s' = s'' ∧ m = m' ∧ t = t' := by simpa using hp'
    exact (List.prefix_cons_inj _).mpr (ih h' hu')

/-- The stream of an upload over the stand-in that remembers it. -/
def loggedPush (u : Upload) : Pushed :=
  ⟨u.r, u.password ++ u.salt, (pushLog (u.password ++ u.salt) (cut CHUNK_SIZE u.content)).map Prod.snd⟩

theorem pushItems_pushLog (header key : Bytes) (log : List (Bytes × Bytes × UInt8)) (h k : Bytes) (i : Nat)
    (ms : List Bytes) :
    pushItems (loggedStream header key log) (h, k, i) ((pushLog k ms).map Prod.snd) = (pushLog k ms).map Prod.fst := by
  induction ms generalizing i with
  | nil => rfl
  | cons m ms ih =>
    cases ms with
    | nil => rfl
    | cons m' ms => simp only [pushLog, List.map_cons, pushItems, ih]

theorem onlyPushed_logged (u : Upload) : OnlyPushed (loggedSodium u).ss (· = loggedPush u) := by
  intro h k s cs ts hi hp hne
  obtain ⟨hs1, hs2, hpre⟩ := loggedStream_only hp hne
  obtain rfl : (h, k, 0) = s := Option.some.inj hi
  obtain rfl : h = _ := hs1
  obtain rfl : k = _ := hs2
  have hchunks : (loggedPush u).chunks (loggedSodium u).ss =
      (pushLog (u.password ++ u.salt) (cut CHUNK_SIZE u.content)).map Prod.fst :=
    pushItems_pushLog _ _ _ _ _ _ _
  have hall : pullAll (loggedSodium u).ss (fit STREAM_HEADERBYTES u.r, u.password ++ u.salt, 0)
      ((pushLog (u.password ++ u.salt) (cut CHUNK_SIZE u.content)).map Prod.fst) = some (loggedPush u).items :=
    loggedStream_genuine (pushLog_lengths _ _) List.drop_zero
  refine ⟨loggedPush u, rfl, rfl, rfl, hchunks ▸ hpre, ?_⟩
  obtain ⟨ds, hds⟩ := hpre
  rw [List.drop_zero] at hds
  rw [← hds] at hall
  exact pullAll_begins hp hall

theorem download_writes_authenticated_alice : ∃ w' pub,
    Runs ((loggedClient aliceUpload).decryptAndReadFromServer 0)
      ⟨aliceOut, cutStream (loggedClient aliceUpload) aliceUpload
        (aliceUpload.chunks (loggedSodium aliceUpload)), false, [], []⟩ 0 w' ∧
    WritesAuthenticated (loggedClient aliceUpload) (· = loggedPush aliceUpload) aliceOut
      (cutStream (loggedClient aliceUpload) aliceUpload (aliceUpload.chunks (loggedSodium aliceUpload))) pub ∧
    w'.st.accepted = pub.map Prod.fst ∧ pub.map Prod.fst = aliceUpload.chunks (loggedSodium aliceUpload) ∧
    ∀ q, w'.st.fs.lookup q = (ClientEnv.written (writerOutput (pub.map Prod.snd)) aliceOut).fs.lookup q := by
  have hI : Ideal (loggedClient aliceUpload).na (· = aliceUpload) := loggedSodium_ideal aliceUpload
  have hne := (aliceUpload.chunks_blocky (loggedSodium aliceUpload)).ne_nil
  obtain ⟨w', hr, hacc⟩ := runs_cutStream hI rfl rfl aliceOut rfl hne (List.prefix_refl _)
  have hP : OnlyPushed (loggedClient aliceUpload).na.ss (· = loggedPush aliceUpload) := onlyPushed_logged aliceUpload
  obtain ⟨pub, hw, htie, hfs⟩ := download_writes_authenticated hP 0 aliceOut _ false [] [] hr
  rcases htie with htie | ⟨-, hnil⟩
  · exact ⟨w', pub, hr, hw, htie, htie.symm.trans hacc, hfs⟩
  · exact absurd (hacc.symm.trans hnil) hne

/-! ## Downloads that fail -/

section
variable (C : ClientEnv) (act : Nat) (RA : ReceiverAgent) (file_name : Bytes)

/-- The output file of a download. -/
def outName : Bytes := file_name.take (file_name.length - 4)

/-- The name goes out and the output is opened.
mirrors src/client/client.cpp:108-124 -/
def requestFile : Client Unit := do
  let _ ← sendFrame C.na.aead ⟨act, .fileName⟩ (file_name ++ [0]) C.client_tx RA.nonce
  C.openOut (outName file_name)

/-- The name is long enough to take the extension off, and the download that
follows returns `r`. -/
def Fetches (w : World ClientState Role) (r : Int) (w' : World ClientState Role) : Prop :=
  4 ≤ file_name.length ∧
    ∃ w1, Runs (requestFile C act RA file_name) w () w1 ∧ Runs (C.decryptAndReadFromServer act) w1 r w'

/-- When the download fails, `RFFS_Handler` returns non-zero and every local file
is as before. -/
def FailedDownloadReported (w : World ClientState Role) : Prop :=
  ∀ r w', Fetches C act RA file_name w r w' → r ≠ 0 → ∀ ret w'', Runs (C.rffsHandler act RA file_name) w ret w'' →
    (∃ s, ret = some s ∧ s ≠ 0) ∧ ∀ p, w''.st.fs.lookup p = w.st.fs.lookup p

end

section
variable {C : ClientEnv} {act : Nat} {RA : ReceiverAgent} {file_name : Bytes} {w w' : World ClientState Role} {r : Int}

theorem rffsHandler_fetches (hf : Fetches C act RA file_name w r w') :
    Runs (C.rffsHandler act RA file_name) w (some 0) w' := by
  obtain ⟨hl, w1, hreq, hd⟩ := hf
  unfold requestFile at hreq
  rw [runs_bind] at hreq
  obtain ⟨n, w2, hsend, hopen⟩ := hreq
  refine Runs.bind hsend ?_
  rw [if_neg (Nat.not_lt.mpr hl)]
  refine Runs.bind hopen ?_
  exact Runs.bind hd ((runs_pure _ _ _ _).mpr ⟨rfl, rfl⟩)

/-- Opening is storing nothing. -/
theorem opened_fs (C : ClientEnv) (name : Bytes) (st : ClientState) :
    (C.opened name st).fs = st.fs.stored C.cwd name [] := by
  unfold ClientEnv.opened FS.stored
  cases ho : st.fs.openTrunc C.cwd name with
  | none => rfl
  | some x =>
    obtain ⟨p, fs⟩ := x
    exact FS.openTrunc_eq ho

/-- What a download does to the files: the output holds what was written. -/
theorem fetches_stored (hf : Fetches C act RA file_name w r w') :
    ∃ b, ∀ p, w'.st.fs.lookup p = (w.st.fs.stored C.cwd (outName file_name) b).lookup p := by
  obtain ⟨-, w1, hreq, hd⟩ := hf
  unfold requestFile at hreq
  rw [runs_bind] at hreq
  obtain ⟨n, w2, hsend, hopen⟩ := hreq
  obtain ⟨v, hv, hst⟩ := sendFrame_any C.na.aead (⟨act, .fileName⟩ : Role) (file_name ++ [0]) C.client_tx RA.nonce w
  obtain ⟨-, rfl⟩ := hsend.unique hv
  obtain rfl := (runs_modify _ _ _ _).mp hopen
  rcases decrypt_cases hd with ⟨-, hfs, -⟩ | ⟨header, salt, rest, state, bs, ts, -, -, -, -, -, hst'⟩
  · refine ⟨[], fun p => ?_⟩
    rw [hfs, hst, opened_fs]
  · refine ⟨((bs.zip (ts.map Prod.fst)).map Prod.snd).flatten, fun p => ?_⟩
    rw [hst', hst, (ClientEnv.downloaded_opened _ _ _).1]

end

/-- A download that fails is never reported: `RFFS_Handler` returns 0 whatever
`decrypt_and_read_from_server` returned. The files are as before only if the output
did not open, or already held what was written up to the failure. -/
theorem failed_download_unreported (C : ClientEnv) (act : Nat) (RA : ReceiverAgent) (file_name : Bytes)
    (w : World ClientState Role) :
    (FailedDownloadReported C act RA file_name w ↔ ∀ r w', Fetches C act RA file_name w r w' → r = 0) ∧
    ∀ r w', Fetches C act RA file_name w r w' → Runs (C.rffsHandler act RA file_name) w (some 0) w' ∧
      ∃ b, (∀ p, w'.st.fs.lookup p = (w.st.fs.stored C.cwd (outName file_name) b).lookup p) ∧
        ((∀ p, w'.st.fs.lookup p = w.st.fs.lookup p) ↔ w.st.fs.openTrunc C.cwd (outName file_name) = none ∨
          w.st.fs.openRead C.cwd (outName file_name) = some ⟨b, false⟩) := by
  refine ⟨⟨fun h r w' hf => ?_, fun h r w' hf hr => absurd (h r w' hf) hr⟩, fun r w' hf => ?_⟩
  · by_contra hr
    obtain ⟨⟨s, hs, h0⟩, -⟩ := h r w' hf hr _ _ (rffsHandler_fetches hf)
    exact h0 (Option.some.inj hs).symm
  · obtain ⟨b, hb⟩ := fetches_stored hf
    refine ⟨rffsHandler_fetches hf, b, hb, ?_⟩
    rw [← FS.stored_same_iff]
    exact forall_congr' fun p => by rw [hb p]

/-- Alice asks for `"a.enc"` and the server closes the connection; her own `"a"` is
gone. -/
theorem closed_download_unreported :
    ¬ FailedDownloadReported aliceClient 0 ⟨u64Enc 0⟩ ([97] ++ ext) ⟨aliceHome, [], true, [], []⟩ := by
  have hrun : (exec 1 (requestFile aliceClient 0 ⟨u64Enc 0⟩ ([97] ++ ext)) ⟨aliceHome, [], true, [], []⟩).bind
      (fun y => (exec 1 (aliceClient.decryptAndReadFromServer 0) y.2).map Prod.fst) = some 1 := by decide +kernel
  intro h
  obtain ⟨⟨_, w1⟩, h1, h2⟩ := Option.bind_eq_some_iff.mp hrun
  obtain ⟨⟨r, w'⟩, hr, hr1⟩ := Option.map_eq_some_iff.mp h2
  obtain rfl : r = 1 := hr1
  have hf : Fetches aliceClient 0 ⟨u64Enc 0⟩ ([97] ++ ext) ⟨aliceHome, [], true, [], []⟩ 1 w' :=
    ⟨by decide, w1, ⟨1, h1⟩, ⟨1, hr⟩⟩
  obtain ⟨⟨s, hs, h0⟩, -⟩ := h _ _ hf (by decide) _ _ (rffsHandler_fetches hf)
  exact h0 (Option.some.inj hs).symm

end Mefsc.L4
