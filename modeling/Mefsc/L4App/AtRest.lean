import Mefsc.L4App.RoundTrip

/-!
# Stored files that were changed

`Ideal na U`: the cryptography as an ideal, relative to the uploads `U` that
were made. `crypto_pwhash` has no collisions with their keys, the secret stream
accepts what was pushed, and whatever sequence of chunks it accepts under some
header and key is the beginning of the chunks of an upload with that header and
key.

The client never looks at the tag of the last chunk. Still
(`download_zero_iff`): when an honest server sends the bytes `B` it found, the
client returns 0 exactly when `B` is a whole stored upload under its password.
A part of an upload would have to end in a full chunk, but the server's last
block is always short; and a file cut inside header or salt is followed by an
empty blob, which is shorter than a tag.
-/
namespace Mefsc.L4

open L1 L3
open Proc hiding ret recv send act iter bind

/-- One call of `encrypt_and_send_to_server`: what it encrypted, and the
random bytes it used. -/
structure Upload where
  password : Bytes
  r : Bytes
  salt : Bytes
  content : Bytes
  salt_length : salt.length = PWHASH_SALTBYTES

namespace Upload

variable (na : Sodium) (u : Upload)

def key : Bytes := na.pwhash u.password u.salt

def header : Bytes := (na.ss.initPush u.r (u.key na)).2

def chunks : List Bytes := pushAll na.ss (na.ss.initPush u.r (u.key na)).1 (cut CHUNK_SIZE u.content)

/-- What the server stores for it. -/
def stored : Bytes := storedFile na.ss u.r (u.key na) u.salt u.content

theorem chunks_blocky : Blocky FILE_ENCRYPTED_CHUNK_SIZE (u.chunks na) := pushAll_blocky na.ss _ _

theorem stored_eq : u.stored na = u.header na ++ u.salt ++ (u.chunks na).flatten := rfl

end Upload

structure Ideal (na : Sodium) (U : Upload → Prop) : Prop where
  key_inj : ∀ u p s, U u → s.length = PWHASH_SALTBYTES → na.pwhash p s = u.key na →
    p = u.password ∧ s = u.salt
  genuine : ∀ u, U u → ∃ s ts, na.ss.initPull (u.header na) (u.key na) = some s ∧
    pullAll na.ss s (u.chunks na) = some ts ∧ ts.map Prod.fst = cut CHUNK_SIZE u.content
  only : ∀ h k s cs ts, na.ss.initPull h k = some s → pullAll na.ss s cs = some ts → cs ≠ [] →
    ∃ u, U u ∧ u.header na = h ∧ u.key na = k ∧ cs <+: u.chunks na

/-! ## Pulling -/

theorem pulled_of_pullAll {S : SecretStream} {s : S.State} {cs : List Bytes}
    {ts : List (Bytes × UInt8)} (h : pullAll S s cs = some ts) :
    (ClientEnv.pulled S s cs).1 = 0 ∧ (ClientEnv.pulled S s cs).2.1.map Prod.fst = cs ∧
      (ClientEnv.pulled S s cs).2.1.map Prod.snd = ts.map Prod.fst := by
  induction cs generalizing s ts with
  | nil =>
    obtain rfl : [] = ts := by simpa [pullAll] using h
    exact ⟨rfl, rfl, rfl⟩
  | cons c cs ih =>
    obtain ⟨s', m, t, ts', hp, h', rfl⟩ := pullAll_cons h
    simpa [ClientEnv.pulled, hp] using ih h'

theorem pullAll_of_pulled {S : SecretStream} {s : S.State} {cs : List Bytes}
    (h : (ClientEnv.pulled S s cs).1 = 0) : ∃ ts, pullAll S s cs = some ts := by
  induction cs generalizing s with
  | nil => exact ⟨[], rfl⟩
  | cons c cs ih =>
    cases hp : S.pull s c with
    | none => simp [ClientEnv.pulled, hp] at h
    | some x =>
      obtain ⟨s', m, t⟩ := x
      obtain ⟨ts, hts⟩ := ih (s := s') (by simpa [ClientEnv.pulled, hp] using h)
      exact ⟨(m, t) :: ts, by simp [pullAll, hp, hts]⟩

/-- Nothing shorter than a tag is accepted. -/
theorem pullAll_nil_chunk {S : SecretStream} (s : S.State) : pullAll S s [[]] = none := by
  cases h : pullAll S s [[]] with
  | none => rfl
  | some ts =>
    obtain ⟨s', m, t, ts', hp, -, -⟩ := pullAll_cons h
    have hl := S.pull_length _ _ _ _ _ hp
    simp [STREAM_ABYTES] at hl

/-! ## What the server sends for `B` -/

/-- A file with a header and a salt is those, followed by the blocks sent. -/
theorem sent_parts {B : Bytes} (h : STREAM_HEADERBYTES + PWHASH_SALTBYTES ≤ B.length) (m1 m2 : Bytes) :
    ServerEnv.sentHeader B m1 ++ ServerEnv.sentSalt B m2 ++ (ServerEnv.sentChunks B).flatten = B := by
  have h1 : ServerEnv.sentHeader B m1 = B.take STREAM_HEADERBYTES := by
    refine blit_eq_of_length ?_
    rw [fit_length, List.length_take]
    omega
  have h2 : ServerEnv.sentSalt B m2 = (B.drop STREAM_HEADERBYTES).take PWHASH_SALTBYTES := by
    refine blit_eq_of_length ?_
    rw [fit_length, List.length_take, List.length_drop]
    omega
  rw [h1, h2, ServerEnv.sentChunks, cut_flatten file_chunk_size_pos, ← List.drop_drop,
    List.append_assoc, List.take_append_drop, List.take_append_drop]

/-- Without them, there is one empty blob. -/
theorem sentChunks_short {B : Bytes} (h : B.length < STREAM_HEADERBYTES + PWHASH_SALTBYTES) :
    ServerEnv.sentChunks B = [[]] := by
  rw [ServerEnv.sentChunks, List.drop_eq_nil_of_le h.le]
  exact cut_short file_chunk_size_pos file_chunk_size_pos

section
variable {na : Sodium} {U : Upload → Prop}

/-- If every block the server sends is accepted, the file is an upload. -/
theorem stored_of_pullAll (hI : Ideal na U) {password B m1 m2 : Bytes} {s : na.ss.State}
    (hi : na.ss.initPull (ServerEnv.sentHeader B m1)
      (na.pwhash password (ServerEnv.sentSalt B m2)) = some s)
    {ts : List (Bytes × UInt8)} (hp : pullAll na.ss s (ServerEnv.sentChunks B) = some ts) :
    ∃ u, U u ∧ u.password = password ∧ B = u.stored na := by
  have hlong : STREAM_HEADERBYTES + PWHASH_SALTBYTES ≤ B.length := by
    by_contra hc
    rw [sentChunks_short (by omega), pullAll_nil_chunk] at hp
    cases hp
  obtain ⟨u, hu, hhead, hkey, hpre⟩ := hI.only _ _ _ _ _ hi hp (sentChunks_blocky B).ne_nil
  obtain ⟨hpw, hsalt⟩ := hI.key_inj u password _ hu (sentSalt_length B m2) hkey.symm
  have hchunks := (sentChunks_blocky B).eq_of_begins (u.chunks_blocky na) hpre
  refine ⟨u, hu, hpw.symm, ?_⟩
  rw [u.stored_eq, ← hchunks, hhead, ← hsalt]
  exact (sent_parts hlong m1 m2).symm

/-- A whole upload under the right password is accepted and decrypted. -/
theorem pulled_stored (hI : Ideal na U) {u : Upload} (hu : U u) (m1 m2 : Bytes) :
    ∃ s, na.ss.initPull (ServerEnv.sentHeader (u.stored na) m1)
        (na.pwhash u.password (ServerEnv.sentSalt (u.stored na) m2)) = some s ∧
      (ClientEnv.pulled na.ss s (ServerEnv.sentChunks (u.stored na))).1 = 0 ∧
      ((ClientEnv.pulled na.ss s (ServerEnv.sentChunks (u.stored na))).2.1.map Prod.snd).flatten =
        u.content := by
  obtain ⟨s, ts, hs, hts, hc⟩ := hI.genuine u hu
  have hch : ServerEnv.sentChunks (u.stored na) = u.chunks na :=
    sentChunks_stored na.ss u.r (u.key na) u.content u.salt_length
  have hsa : ServerEnv.sentSalt (u.stored na) m2 = u.salt :=
    sentSalt_stored na.ss u.r (u.key na) u.content m2 u.salt_length
  have hhe : ServerEnv.sentHeader (u.stored na) m1 = u.header na :=
    sentHeader_stored na.ss u.r (u.key na) u.salt u.content m1
  obtain ⟨h0, -, h2⟩ := pulled_of_pullAll hts
  rw [hch, hsa, hhe]
  exact ⟨s, hs, h0, by rw [h2, hc, cut_flatten chunk_size_pos]⟩

end

/-- What an honest server finds as the stored file is accepted exactly when it
is a whole upload under the client's password, and then its content is what the
client writes. -/
theorem download_zero_iff {C : ClientEnv} {E : ServerEnv} {U : Upload → Prop} (hl : Linked C E)
    (hI : Ideal C.na U) (act : Nat) {n name : Bytes} (hn : n.length = 8)
    (hlen : (name ++ [0]).length ≤ PRE_EXT_FILE_NAME_LEN) {sst : FsOperator} {B : Bytes}
    (ho : sst.fs.openRead E.cwd (E.user_dir ++ cstr name) = some ⟨B, false⟩) :
    ∃ sst' down,
      Runs (E.rffsHandlerServer act)
        ⟨sst, frame E.na.aead E.server_rx n (name ++ [0]), false, [], []⟩ 0
        ⟨sst', [], false, down, []⟩ ∧
      ∀ (cst : ClientState) (p : Path), cst.file = some p → cst.fs.lookup p = some (.file []) →
        C.host.oom cst.hashes = false → ∃ status cst' inp' evs,
          Runs (C.decryptAndReadFromServer act) ⟨cst, sent down, false, [], []⟩ status
            ⟨cst', inp', false, evs, []⟩ ∧
          (status = 0 ↔ ∃ u, U u ∧ u.password = C.password ∧ B = u.stored C.na) ∧
          ∀ u, U u → u.password = C.password → B = u.stored C.na →
            cst'.fs.lookup p = some (.file u.content) := by
  obtain ⟨sst', down, nonce, m1, m2, hdown, -, hsent⟩ := download_sends (E := E) act hn hlen ho
  refine ⟨sst', down, hdown, fun cst p hf hp hoom => ?_⟩
  rw [hl.na, hl.down] at hsent
  rw [hsent]
  cases hi : C.na.ss.initPull (ServerEnv.sentHeader B m1)
      (C.na.pwhash C.password (ServerEnv.sentSalt B m2)) with
  | none =>
    obtain ⟨evs, inp', hr⟩ := ClientEnv.runs_decryptAndRead_badHeader (C := C) cst [] false [] act nonce
      (sentHeader_length B m1) (sentSalt_length B m2) (ServerEnv.sentChunks B) hoom hi
    -- every upload has a header that `init_pull` takes
    have hno : ∀ u, U u → u.password = C.password → B ≠ u.stored C.na := by
      rintro u hu hpw rfl
      obtain ⟨s, hs, -⟩ := pulled_stored hI hu m1 m2
      rw [hpw, hi] at hs
      cases hs
    refine ⟨2, _, inp', [] ++ evs, by simpa using hr, ?_, fun u hu hpw hB => absurd hB (hno u hu hpw)⟩
    constructor
    · intro h2
      cases h2
    · rintro ⟨u, hu, hpw, hB⟩
      exact absurd hB (hno u hu hpw)
  | some s =>
    obtain ⟨inp', evs, hr⟩ := download_reads act nonce m1 m2 B hoom hi
    have hgood : ∀ u, U u → u.password = C.password → B = u.stored C.na →
        (ClientEnv.pulled C.na.ss s (ServerEnv.sentChunks B)).1 = 0 ∧
        ((ClientEnv.pulled C.na.ss s (ServerEnv.sentChunks B)).2.1.map Prod.snd).flatten =
          u.content := by
      rintro u hu hpw rfl
      obtain ⟨s', hs', h0, hc⟩ := pulled_stored hI hu m1 m2
      rw [hpw, hi] at hs'
      cases hs'
      exact ⟨h0, hc⟩
    refine ⟨_, _, inp', evs, hr, ?_, fun u hu hpw hB => ?_⟩
    · constructor
      · intro h0
        obtain ⟨ts, hts⟩ := pullAll_of_pulled h0
        exact stored_of_pullAll hI hi hts
      · rintro ⟨u, hu, hpw, hB⟩
        exact (hgood u hu hpw hB).1
    · rw [downloaded_lookup hf hp, (hgood u hu hpw hB).2, List.nil_append]

/-! ## An ideal stream for one upload -/

/-- A stream that remembers the chunks of one upload: its `i`-th pull accepts
exactly the `i`-th of them, under their header and key. -/
@[reducible]
def loggedStream (header key : Bytes) (log : List (Bytes × Bytes × UInt8)) : SecretStream where
  State := Bytes × Bytes × Nat
  initPush r k := ((fit STREAM_HEADERBYTES r, k, 0), fit STREAM_HEADERBYTES r)
  push s m t := ((s.1, s.2.1, s.2.2 + 1), t :: tagged s.2.1 m)
  initPull h k := some (h, k, 0)
  pull s c :=
    match log[s.2.2]? with
    | none => none
    | some (c', m, t) =>
      if s.1 = header ∧ s.2.1 = key ∧ c = c' ∧ c.length = m.length + STREAM_ABYTES then
        some ((s.1, s.2.1, s.2.2 + 1), m, t)
      else none
  header_length r k := fit_length _ _
  push_length s m t := by simp [tagged, STREAM_ABYTES]
  pull_length s c s' m t h := by
    split at h
    · cases h
    · split at h
      · rename_i hc
        simp only [Option.some.injEq, Prod.mk.injEq] at h
        obtain ⟨-, rfl, -⟩ := h
        exact hc.2.2.2
      · cases h

section
variable {header key : Bytes} {log : List (Bytes × Bytes × UInt8)}

/-- Whatever is accepted from position `i` on begins the rest of the log. -/
theorem loggedStream_only {cs : List Bytes} {s : (loggedStream header key log).State}
    {ts : List (Bytes × UInt8)} (h : pullAll (loggedStream header key log) s cs = some ts)
    (hne : cs ≠ []) : s.1 = header ∧ s.2.1 = key ∧ cs <+: (log.drop s.2.2).map Prod.fst := by
  induction cs generalizing s ts with
  | nil => exact absurd rfl hne
  | cons c cs ih =>
    obtain ⟨s', m, t, ts', hp, h', -⟩ := pullAll_cons h
    simp only at hp
    split at hp
    · cases hp
    · rename_i c' m' t' hlog
      split at hp
      · rename_i hc
        obtain ⟨hhead, hkey, rfl, -⟩ := hc
        simp only [Option.some.injEq, Prod.mk.injEq] at hp
        obtain ⟨rfl, rfl, rfl⟩ := hp
        refine ⟨hhead, hkey, ?_⟩
        rw [List.drop_eq_getElem?_toList_append, hlog]
        cases cs with
        | nil => simp
        | cons d ds =>
          obtain ⟨-, -, hpre⟩ := ih h' (by simp)
          simpa using hpre
      · cases hp

/-- The rest of the log is accepted. -/
theorem loggedStream_genuine (hlen : ∀ x ∈ log, x.1.length = x.2.1.length + STREAM_ABYTES) {i : Nat}
    {rest : List (Bytes × Bytes × UInt8)} (hi : log.drop i = rest) :
    pullAll (loggedStream header key log) (header, key, i) (rest.map Prod.fst) =
      some (rest.map Prod.snd) := by
  induction rest generalizing i with
  | nil => rfl
  | cons x xs ih =>
    obtain ⟨c, m, t⟩ := x
    have hget : log[i]? = some (c, m, t) := by
      have := congrArg (·[0]?) hi
      simpa using this
    have hx : c.length = m.length + STREAM_ABYTES :=
      hlen (c, m, t) (List.mem_of_getElem? hget)
    have hdrop : log.drop (i + 1) = xs := by
      rw [← List.drop_drop, hi]
      rfl
    have hp : (loggedStream header key log).pull (header, key, i) c = some ((header, key, i + 1), m, t) := by
      simp [hget, hx]
    rw [List.map_cons, pullAll, hp]
    simp [ih hdrop]

end

/-- The chunks, messages and tags of a file under `key`. -/
def pushLog (key : Bytes) : List Bytes → List (Bytes × Bytes × UInt8)
  | [] => []
  | [m] => [(TAG_FINAL :: tagged key m, m, TAG_FINAL)]
  | m :: m' :: ms => (0 :: tagged key m, m, 0) :: pushLog key (m' :: ms)

theorem pushLog_messages (key : Bytes) (ms : List Bytes) :
    (pushLog key ms).map (fun x => x.2.1) = ms := by
  induction ms with
  | nil => rfl
  | cons m ms ih =>
    cases ms with
    | nil => rfl
    | cons m' ms => simp only [pushLog, List.map_cons, ih]

theorem pushLog_lengths (key : Bytes) (ms : List Bytes) :
    ∀ x ∈ pushLog key ms, x.1.length = x.2.1.length + STREAM_ABYTES := by
  induction ms with
  | nil => simp [pushLog]
  | cons m ms ih =>
    cases ms with
    | nil => simp [pushLog, tagged, STREAM_ABYTES]
    | cons m' ms =>
      intro x hx
      rcases List.mem_cons.mp hx with rfl | hx
      · simp [tagged, STREAM_ABYTES]
      · exact ih x hx

theorem pushAll_loggedStream (header key : Bytes) (log : List (Bytes × Bytes × UInt8)) (h k : Bytes)
    (i : Nat) (ms : List Bytes) :
    pushAll (loggedStream header key log) (h, k, i) ms = (pushLog k ms).map Prod.fst := by
  induction ms generalizing i with
  | nil => rfl
  | cons m ms ih =>
    cases ms with
    | nil => rfl
    | cons m' ms => simp only [pushAll, pushLog, List.map_cons, ih]

/-- libsodium when `u` is the only upload ever made. -/
@[reducible]
def loggedSodium (u : Upload) : Sodium :=
  { plainSodium with
    ss := loggedStream (fit STREAM_HEADERBYTES u.r) (u.password ++ u.salt)
      (pushLog (u.password ++ u.salt) (cut CHUNK_SIZE u.content)) }

theorem loggedSodium_chunks (u : Upload) :
    u.chunks (loggedSodium u) =
      (pushLog (u.password ++ u.salt) (cut CHUNK_SIZE u.content)).map Prod.fst :=
  pushAll_loggedStream _ _ _ _ _ _ _

theorem loggedSodium_ideal (u : Upload) : Ideal (loggedSodium u) (· = u) where
  key_inj := by
    rintro v p s rfl hs h
    exact List.append_inj' (show p ++ s = v.password ++ v.salt from h) (hs.trans v.salt_length.symm)
  genuine := by
    rintro v rfl
    refine ⟨(fit STREAM_HEADERBYTES v.r, v.password ++ v.salt, 0),
      (pushLog (v.password ++ v.salt) (cut CHUNK_SIZE v.content)).map Prod.snd, rfl, ?_, ?_⟩
    · rw [loggedSodium_chunks]
      exact loggedStream_genuine (pushLog_lengths _ _) List.drop_zero
    · rw [List.map_map]
      exact pushLog_messages _ _
  only := by
    intro h k s cs ts hi hp hne
    obtain ⟨hs1, hs2, hpre⟩ := loggedStream_only hp hne
    obtain rfl : (h, k, 0) = s := Option.some.inj hi
    refine ⟨u, rfl, hs1.symm, hs2.symm, ?_⟩
    rw [loggedSodium_chunks]
    exact hpre

/-- Alice's upload of three bytes, and the session over the ideal stream with
that upload on the server. -/
def aliceUpload : Upload := ⟨[112, 119], [], List.replicate 16 5, [1, 2, 3], rfl⟩

def loggedClient (u : Upload) : ClientEnv := { aliceClient with na := loggedSodium u }

def loggedServer (u : Upload) : ServerEnv := { aliceServer with na := loggedSodium u }

def aliceStored : FsOperator :=
  { aliceDir with
    fs := aliceDir.fs.insert [mefS, alice, [97] ++ ext]
      (.file (aliceUpload.stored (loggedSodium aliceUpload))) }

theorem download_zero_iff_alice :
    ∃ down status cst' inp' evs,
      Runs ((loggedClient aliceUpload).decryptAndReadFromServer 0) ⟨aliceOut, down, false, [], []⟩ status
        ⟨cst', inp', false, evs, []⟩ ∧
      status = 0 ∧ cst'.fs.lookup [[97]] = some (.file [1, 2, 3]) := by
  have ho : aliceStored.fs.openRead [] ((loggedServer aliceUpload).user_dir ++ cstr ([97] ++ ext)) =
      some ⟨aliceUpload.stored (loggedSodium aliceUpload), false⟩ := by
    have hw : aliceStored.fs.walk []
        (splitSlash ((loggedServer aliceUpload).user_dir ++ cstr ([97] ++ ext))) =
        .ok [mefS, alice, [97] ++ ext] := by decide
    have hn : aliceStored.fs.node [mefS, alice, [97] ++ ext] =
        some (.file (aliceUpload.stored (loggedSodium aliceUpload))) := by simp [aliceStored, FS.node]
    simp only [FS.openRead, hw, hn]
  obtain ⟨sst', down, -, h⟩ := download_zero_iff (C := loggedClient aliceUpload)
    (E := loggedServer aliceUpload) ⟨rfl, rfl, rfl⟩ (loggedSodium_ideal aliceUpload) 0
    (show ([0, 0, 0, 0, 0, 0, 0, 0] : Bytes).length = 8 from rfl) (by decide) ho
  obtain ⟨status, cst', inp', evs, hr, hz, hc⟩ := h aliceOut [[97]] rfl (by decide) rfl
  exact ⟨_, status, cst', inp', evs, hr, hz.mpr ⟨aliceUpload, rfl, rfl, rfl⟩, hc aliceUpload rfl rfl rfl⟩

end Mefsc.L4
