import Mefsc.L1Encoding.Offers
import Mefsc.L4App.Ends
import Mefsc.L4App.Reported

/-!
# Uploads as the client sends them

`encrypt_and_send_to_server` goes on whatever `set_crypto` returned, and reads
its file in a loop that asks for nothing but `eof`.

* `sendKeyed`: the part of the upload behind `set_crypto`, with a file whose
  reads fail from some byte on (`openInOn`).
* `FromAgent`: what goes out in an upload belongs to the agent: its salt, the
  header and the chunks under its key (`sendKeyed_offers`).
* `file_key_fits_salt_iff`: that key is the one for the salt unless the call of
  `crypto_pwhash` failed.
* `upload_loop_ends_iff`: the loop ends unless a read fails; `END_CHUNK` goes out
  with the last chunk of the whole file only.
-/
namespace Mefsc.L3

open L1 L1.SessionEncWrapper L2
open Proc hiding ret recv send act iter bind

namespace ClientEnv

variable (C : ClientEnv)

/-- `std::ifstream file(file_name)` on a disk that fails. -/
def openInOn (φ : Option Nat) (file_name : Bytes) : Client (Option Source) :=
  read fun s => (s.fs.openRead C.cwd file_name).map (failing φ)

/-- mirrors src/client/authed_entry.cpp:108-175 -/
def sendKeyed (φ : Option Nat) (act : Nat) (SA : SenderAgent) (file_name : Bytes) : Client Int := do
  let file ← C.openInOn φ file_name
  let r ← C.randombytes STREAM_HEADERBYTES
  let (state, header) := C.na.ss.initPush r SA.key
  let (status, nonce) ← C.initSend act SA file file_name header
  match file with
  | none => return status
  | some src =>
    let _ ← loop (C.sendRound act) (0, IStream.ofSource src, state, nonce)
    return 0

/-- mirrors src/client/authed_entry.cpp:101-175 -/
def encryptOn (φ : Option Nat) (act : Nat) (SA : SenderAgent) (file_name : Bytes) : Client Int := do
  let SA ← C.setCrypto SA
  C.sendKeyed φ act SA file_name

theorem openInOn_none : C.openInOn none = C.openIn := by
  have hid : failing none = id := rfl
  funext name
  simp [openInOn, openIn, hid]

/-- On a disk that does not fail it is the upload. -/
theorem encryptOn_none (act : Nat) (SA : SenderAgent) (file_name : Bytes) :
    C.encryptOn none act SA file_name = C.encryptAndSendToServer act SA file_name := by
  unfold encryptOn sendKeyed
  rw [openInOn_none]
  rfl

end ClientEnv

end Mefsc.L3

namespace Mefsc.L4

open L1 L1.SessionEncWrapper L2 L3
open Proc hiding ret recv send act iter bind

/-! ## What goes out -/

section
variable (C : ClientEnv) (act : Nat) (g : C.Sending)

/-- The push of a round, with the state before. -/
def pushOf : C.na.ss.State × Bytes :=
  C.na.ss.push g.2.2.1 (g.2.1.read CHUNK_SIZE).1 (if (g.2.1.read CHUNK_SIZE).2.eofbit then TAG_FINAL else 0)

/-- What a round offers: the prefix, and the length and the data of a blob. -/
def roundPieces : List (Role × Bytes) :=
  [(⟨act, .chunkPrefix g.1⟩, frame C.na.aead C.client_tx (sodiumIncrement g.2.2.2)
      (i32Enc (if (g.2.1.read CHUNK_SIZE).2.eofbit then END_CHUNK else MEAT_CHUNK))),
    (⟨act, .chunk g.1⟩, u64Enc (pushOf C g).2.length), (⟨act, .chunk g.1⟩, (pushOf C g).2)]

def roundEnds : C.Sending ⊕ Bytes :=
  if (g.2.1.read CHUNK_SIZE).2.eofbit then .inr (sodiumIncrement g.2.2.2)
  else .inl (g.1 + 1, (g.2.1.read CHUNK_SIZE).2, (pushOf C g).1, sodiumIncrement g.2.2.2)

variable {C g} in
theorem roundEnds_last (he : (g.2.1.read CHUNK_SIZE).2.eofbit = true) :
    roundEnds C g = .inr (sodiumIncrement g.2.2.2) := by
  simp [roundEnds, he]

variable {C g} in
theorem roundEnds_more (he : (g.2.1.read CHUNK_SIZE).2.eofbit = false) :
    roundEnds C g = .inl (g.1 + 1, (g.2.1.read CHUNK_SIZE).2, (pushOf C g).1, sodiumIncrement g.2.2.2) := by
  simp [roundEnds, he]

variable {C} in
theorem pushOf_ne_nil : (pushOf C g).2 ≠ [] := by
  unfold pushOf
  rw [← List.length_pos_iff, C.na.ss.push_length]
  exact Nat.add_pos_right _ (by decide)

theorem sendRound_eq : C.sendRound act g = do
    let _ ← sendFrame C.na.aead ⟨act, .chunkPrefix g.1⟩
      (i32Enc (if (g.2.1.read CHUNK_SIZE).2.eofbit then END_CHUNK else MEAT_CHUNK)) C.client_tx g.2.2.2
    let _ ← sendRawBlob ⟨act, .chunk g.1⟩ (pushOf C g).2
    return roundEnds C g := by
  obtain ⟨j, file, state, nonce⟩ := g
  simp only [ClientEnv.sendRound, sendFrame_eq, LawfulMonad.bind_assoc, pure_bind, pushOf, roundEnds]
  cases (file.read CHUNK_SIZE).2.eofbit <;> rfl

end

/-- The push states behind `s0`. -/
inductive Pushing (S : SecretStream) (s0 : S.State) : S.State → Prop where
  | start : Pushing S s0 s0
  | push {s : S.State} (h : Pushing S s0 s) (m : Bytes) (t : UInt8) : Pushing S s0 (S.push s m t).1

/-- A piece of an upload whose push state was made from `r` and the agent's key. -/
structure FromAgent (C : ClientEnv) (SA : SenderAgent) (r : Bytes) (x : Role × Bytes) : Prop where
  header : x.1.kind = .header →
    ∃ n, x.2 = frame C.na.aead C.client_tx n (C.na.ss.initPush r SA.key).2
  salt : x.1.kind = .salt → ∃ n, x.2 = frame C.na.aead C.client_tx n SA.salt
  chunk : ∀ j, x.1.kind = .chunk j → ∃ s m t, Pushing C.na.ss (C.na.ss.initPush r SA.key).1 s ∧
    (x.2 = u64Enc (C.na.ss.push s m t).2.length ∨ x.2 = (C.na.ss.push s m t).2)

section
variable {C : ClientEnv} {SA : SenderAgent} {act : Nat}

/-- A round offers the first two or all of its pieces, one after the other; the
first two only if the second was not taken whole. -/
theorem always_sendRound {K : List (Role × Bytes) → ClientState → Prop} {g : C.Sending}
    {R : C.Sending ⊕ Bytes → List (Role × Bytes) → World ClientState Role → Prop} {o : List (Role × Bytes)}
    {w : World ClientState Role} (hK : ∀ ps, ps <+: roundPieces C act g → K (o ++ ps) w.st)
    (hR : ∀ ps w', ps <+: roundPieces C act g → 2 ≤ ps.length → (accepts (w.outcomes.drop 1) 8 = 8 → 3 ≤ ps.length) →
      w'.st = w.st → w'.outcomes = w.outcomes.drop ps.length → R (roundEnds C g) (o ++ ps) w') :
    Always (OnState K) (C.sendRound act g) R o w := by
  have h0 : K o w.st := by simpa using hK [] List.nil_prefix
  have h1 := hK _ (List.take_prefix 1 (roundPieces C act g))
  have h2 := hK _ (List.take_prefix 2 (roundPieces C act g))
  have h3 := hK _ (List.prefix_refl (roundPieces C act g))
  have hR2 := fun w' => hR _ w' (List.take_prefix 2 (roundPieces C act g)) (by simp [roundPieces])
  have hR3 := fun w' => hR _ w' (List.prefix_refl (roundPieces C act g)) (by simp [roundPieces]) fun _ => Nat.le_refl 3
  rw [sendRound_eq]
  refine Always.bind (Always.sendFrame h0 h1 fun w1 hw1 hos1 => ?_)
  refine Always.bind (Always.sendRawBlob ?_ ?_ ?_ (fun v w' hw' hos hcut => ?_) fun v w' hw' hos => ?_)
  · rw [hw1]
    exact h1
  · rw [hw1, List.append_assoc]
    exact h2
  · rw [hw1, List.append_assoc, List.append_assoc]
    exact h3
  · rw [List.append_assoc]
    have hcut3 : accepts (w.outcomes.drop 1) 8 = 8 → 3 ≤ ((roundPieces C act g).take 2).length :=
      fun hw => absurd (hcut (hos1 ▸ hw)) (pushOf_ne_nil g)
    refine Always.pure ?_ (hR2 w' hcut3 (hw'.trans hw1) (by rw [hos, hos1, List.drop_drop]; rfl))
    unfold OnState
    rw [hw', hw1]
    exact h2
  · rw [List.append_assoc, List.append_assoc]
    refine Always.pure ?_ (hR3 w' (hw'.trans hw1) (by rw [hos, hos1, List.drop_drop]; rfl))
    unfold OnState
    rw [hw', hw1]
    exact h3

/-- What `init_send` offers for a file that opened. -/
def initPieces (C : ClientEnv) (act : Nat) (SA : SenderAgent) (file_name header : Bytes) : List (Role × Bytes) :=
  let n1 := sodiumIncrement SA.nonce
  let n2 := sodiumIncrement n1
  let n3 := sodiumIncrement n2
  [(⟨act, .fileExists⟩, frame C.na.aead C.client_tx n1 [1]),
    (⟨act, .fileName⟩, frame C.na.aead C.client_tx n2 file_name),
    (⟨act, .header⟩, frame C.na.aead C.client_tx n3 header),
    (⟨act, .salt⟩, frame C.na.aead C.client_tx (sodiumIncrement n3) SA.salt)]

theorem always_initSend {K : List (Role × Bytes) → ClientState → Prop} {src : Source} {file_name header : Bytes}
    {R : Int × Bytes → List (Role × Bytes) → World ClientState Role → Prop} {o : List (Role × Bytes)}
    {w : World ClientState Role} (hK : ∀ ps, ps <+: initPieces C act SA file_name header → K (o ++ ps) w.st)
    (hR : ∀ w', w'.st = w.st → w'.outcomes = w.outcomes.drop 4 →
      R (0, sodiumIncrement (sodiumIncrement (sodiumIncrement (sodiumIncrement SA.nonce))))
        (o ++ initPieces C act SA file_name header) w') :
    Always (OnState K) (C.initSend act SA (some src) file_name header) R o w := by
  have hk := fun i => hK _ (List.take_prefix i (initPieces C act SA file_name header))
  have h0 := hk 0
  have h1 := hk 1
  have h2 := hk 2
  have h3 := hk 3
  have h4 := hk 4
  simp only [initPieces, List.take_succ_cons, List.take_zero, List.append_nil] at h0 h1 h2 h3 h4
  refine Always.bind (Always.sendFrame h0 h1 fun w1 hw1 hos1 => ?_)
  refine Always.bind (Always.sendFrame (hw1 ▸ h1) (by simpa [hw1] using h2) fun w2 hw2 hos2 => ?_)
  have hw2 := hw2.trans hw1
  refine Always.bind (Always.sendFrame (by simpa [hw2] using h2) (by simpa [hw2] using h3) fun w3 hw3 hos3 => ?_)
  have hw3 := hw3.trans hw2
  refine Always.bind (Always.sendFrame (by simpa [hw3] using h3) (by simpa [hw3] using h4) fun w4 hw4 hos4 => ?_)
  have hw4 := hw4.trans hw3
  have hos4 : w4.outcomes = w.outcomes.drop 4 := by
    rw [hos4, hos3, hos2, hos1, List.drop_drop, List.drop_drop, List.drop_drop]
  refine Always.pure ?_ ?_
  · unfold OnState
    rw [hw4]
    simpa using h4
  · simpa [initPieces] using hR w4 hw4 hos4

/-- Whatever goes out belongs to the agent. -/
theorem sendKeyed_offers (φ : Option Nat) (SA : SenderAgent) (file_name : Bytes) (w : World ClientState Role) :
    Always (OnState fun o _ => ∀ x ∈ o,
        FromAgent C SA (fit STREAM_HEADERBYTES (C.host.rand w.st.draws)) x)
      (C.sendKeyed φ act SA file_name) (fun _ _ _ => True) [] w := by
  have hnil : ∀ x ∈ ([] : List (Role × Bytes)),
      FromAgent C SA (fit STREAM_HEADERBYTES (C.host.rand w.st.draws)) x := by simp
  refine Always.bind (Always.read hnil ?_)
  refine Always.bind (Always.act hnil hnil ?_)
  cases hf : (w.st.fs.openRead C.cwd file_name).map (failing φ) with
  | none =>
    have hone : ∀ x ∈ [(⟨act, .fileExists⟩, frame C.na.aead C.client_tx (sodiumIncrement SA.nonce) [0])],
        FromAgent C SA (fit STREAM_HEADERBYTES (C.host.rand w.st.draws)) x := by
      intro x hx
      obtain rfl := List.mem_singleton.mp hx
      exact ⟨by simp, by simp, by simp⟩
    refine Always.bind (Always.bind (Always.sendFrame hnil hone fun w1 _ _ => ?_))
    exact Always.pure hone (Always.pure hone trivial)
  | some src =>
    have hinit : ∀ ps, ps <+: initPieces C act SA file_name
        (C.na.ss.initPush (fit STREAM_HEADERBYTES (C.host.rand w.st.draws)) SA.key).2 → ∀ x ∈ [] ++ ps,
        FromAgent C SA (fit STREAM_HEADERBYTES (C.host.rand w.st.draws)) x := by
      intro ps hps x hx
      have hx := hps.subset hx
      simp only [initPieces, List.mem_cons, List.not_mem_nil, or_false] at hx
      rcases hx with rfl | rfl | rfl | rfl
      · exact ⟨by simp, by simp, by simp⟩
      · exact ⟨by simp, by simp, by simp⟩
      · exact ⟨fun _ => ⟨_, rfl⟩, by simp, by simp⟩
      · exact ⟨by simp, fun _ => ⟨_, rfl⟩, by simp⟩
    refine Always.bind (always_initSend hinit fun w1 _ _ => ?_)
    refine Always.bind (Always.loop (J := fun g o _ => (∀ x ∈ o,
        FromAgent C SA (fit STREAM_HEADERBYTES (C.host.rand w.st.draws)) x) ∧
      Pushing C.na.ss (C.na.ss.initPush (fit STREAM_HEADERBYTES (C.host.rand w.st.draws)) SA.key).1 g.2.2.1)
      (R := fun _ o _ => ∀ x ∈ o, FromAgent C SA (fit STREAM_HEADERBYTES (C.host.rand w.st.draws)) x) ?_
      ⟨hinit _ (List.prefix_refl _), .start⟩ |>.mono fun _ _ _ _ h => Always.pure h trivial)
    rintro g o w2 ⟨ho, hg⟩
    have hround : ∀ ps, ps <+: roundPieces C act g → ∀ x ∈ o ++ ps,
        FromAgent C SA (fit STREAM_HEADERBYTES (C.host.rand w.st.draws)) x := by
      intro ps hps x hx
      rcases List.mem_append.mp hx with hx | hx
      · exact ho x hx
      · have hx := hps.subset hx
        simp only [roundPieces, List.mem_cons, List.not_mem_nil, or_false] at hx
        rcases hx with rfl | rfl | rfl
        · exact ⟨by simp, by simp, by simp⟩
        · exact ⟨by simp, by simp, fun _ _ => ⟨_, _, _, hg, .inl rfl⟩⟩
        · exact ⟨by simp, by simp, fun _ _ => ⟨_, _, _, hg, .inr rfl⟩⟩
    refine always_sendRound hround fun ps w' hps _ _ _ _ => ?_
    cases he : (g.2.1.read CHUNK_SIZE).2.eofbit with
    | true =>
      rw [roundEnds_last he]
      exact hround ps hps
    | false =>
      rw [roundEnds_more he]
      exact ⟨hround ps hps, hg.push _ _⟩

/-! ## The key of an upload -/

/-- Something of a chunk was offered. -/
def SendsChunk (act : Nat) (o : List (Role × Bytes)) : Prop := ∃ j b, (⟨act, .chunk j⟩, b) ∈ o

variable (C act) in
/-- Chunks go out only under the key that password and salt give. -/
def KeyFitsSalt (SA : SenderAgent) (file_name : Bytes) (w : World ClientState Role) : Prop :=
  ∀ SA' w1 n o q w2, Runs (C.setCrypto SA) w SA' w1 →
    Goes n (C.sendKeyed none act SA' file_name) w1 o q w2 → SendsChunk act o →
    SA'.key = C.na.pwhash C.password SA'.salt

/-- Without a file there are no chunks. -/
theorem no_chunks {φ : Option Nat} {SA : SenderAgent} {file_name : Bytes} {w : World ClientState Role}
    (hf : w.st.fs.openRead C.cwd file_name = none) :
    Always (OnState fun o _ => ¬ SendsChunk act o) (C.sendKeyed φ act SA file_name) (fun _ _ _ => True) [] w := by
  have hnil : ¬ SendsChunk act [] := by simp [SendsChunk]
  refine Always.bind (Always.read hnil ?_)
  refine Always.bind (Always.act hnil hnil ?_)
  rw [hf]
  have hone : ¬ SendsChunk act
      ([] ++ [(⟨act, .fileExists⟩, frame C.na.aead C.client_tx (sodiumIncrement SA.nonce) [0])]) := by
    simp [SendsChunk]
  refine Always.bind (Always.bind (Always.sendFrame hnil hone fun w1 _ _ => ?_))
  exact Always.pure hone (Always.pure hone trivial)

variable (act) in
theorem offers_sendRound (g : C.Sending) (w : World ClientState Role) :
    ∃ o j b x w', Offers (C.sendRound act g) w o x w' ∧ (⟨act, .chunk j⟩, b) ∈ o := by
  rw [sendRound_eq]
  have h1 := offers_sendFrame C.na.aead (⟨act, .chunkPrefix g.1⟩ : Role)
    (i32Enc (if (g.2.1.read CHUNK_SIZE).2.eofbit then END_CHUNK else MEAT_CHUNK)) C.client_tx g.2.2.2 w
  obtain ⟨o, x, w', h2⟩ := offers_sendRawBlob (⟨act, .chunk g.1⟩ : Role) (pushOf C g).2 _
  exact ⟨_, g.1, u64Enc (pushOf C g).2.length, _, w', h1.bind (h2.bind (offers_pure _ _)), by simp⟩

variable (C act) in
/-- A file that opens has a first chunk, and it is sent. -/
theorem first_chunk (SA : SenderAgent) {file_name : Bytes} {w : World ClientState Role} {src : Source}
    (hf : w.st.fs.openRead C.cwd file_name = some src) :
    ∃ n o q w', Goes n (C.sendKeyed none act SA file_name) w o q w' ∧ SendsChunk act o := by
  let r := fit STREAM_HEADERBYTES (C.host.rand w.st.draws)
  let x := C.na.ss.initPush r SA.key
  let w0 : World ClientState Role := { w with st := { w.st with draws := w.st.draws + 1 } }
  obtain ⟨w1, hr⟩ := initSend_any (C := C) act SA src file_name x.2 w0
  obtain ⟨n1, o1, hinit⟩ := hr.goes
  obtain ⟨o2, j, b, y, w2, hround, hchunk⟩ := offers_sendRound act (0, IStream.ofSource src, x.1,
    sodiumIncrement (sodiumIncrement (sodiumIncrement (sodiumIncrement SA.nonce)))) w1
  obtain ⟨n, q, hloop⟩ := Offers.round hround
  have hrest : ∃ n, Goes n (C.sendKeyed none act SA file_name) w (o1 ++ o2) (q.bind fun _ => pure 0) w2 := by
    refine Offers.goes_bind (o := []) (offers_modifyGet _ w) ?_
    refine Offers.goes_bind (o := []) (offers_modifyGet _ w) ?_
    simp only [hf]
    exact Offers.goes_bind ⟨n1, hinit⟩ ⟨n, hloop.bind _⟩
  obtain ⟨m, hm⟩ := hrest
  exact ⟨m, _, _, w2, hm, j, b, List.mem_append_right o1 hchunk⟩

theorem KeyFitsSalt.derived {file_name : Bytes} {w : World ClientState Role}
    (h : KeyFitsSalt C act SA file_name w) :
    w.st.fs.openRead C.cwd file_name = none ∨ C.host.oom w.st.hashes = false ∨
      C.na.pwhash C.password (saltOf C w.st) = List.replicate BOX_SEEDBYTES 0 := by
  cases hf : w.st.fs.openRead C.cwd file_name with
  | none => exact .inl rfl
  | some src =>
    obtain ⟨n, o, q, w2, hg, hc⟩ := first_chunk C act ⟨SA.nonce, keyOf C w.st, saltOf C w.st⟩
      (w := { w with st := { w.st with draws := w.st.draws + 1, hashes := w.st.hashes + 1 } }) hf
    have hkey := h _ _ n o q w2 (setCrypto_any SA w) hg hc
    unfold keyOf at hkey
    cases ho : C.host.oom w.st.hashes with
    | false => exact .inr (.inl rfl)
    | true => exact .inr (.inr (by simpa [ho] using hkey.symm))

end

/-- What an upload sends is encrypted with the agent's key and says the agent's
salt; the one is derived from the other exactly when no chunk is sent, the
derivation did not run out of memory, or it would have given the cleared key. -/
theorem file_key_fits_salt_iff (C : ClientEnv) (act : Nat) (SA : SenderAgent) (file_name : Bytes)
    (w : World ClientState Role) :
    (∀ SA' w1 n o q w2, Runs (C.setCrypto SA) w SA' w1 →
      Goes n (C.sendKeyed none act SA' file_name) w1 o q w2 →
      ∀ x ∈ o, FromAgent C SA' (fit STREAM_HEADERBYTES (C.host.rand w1.st.draws)) x) ∧
    (KeyFitsSalt C act SA file_name w ↔
      w.st.fs.openRead C.cwd file_name = none ∨ C.host.oom w.st.hashes = false ∨
        C.na.pwhash C.password (saltOf C w.st) = List.replicate BOX_SEEDBYTES 0) := by
  refine ⟨fun SA' w1 n o q w2 _ hg => (sendKeyed_offers none SA' file_name w1 n o q w2 hg).1, fun h => h.derived, ?_⟩
  intro h SA' w1 n o q w2 hr hg hc
  obtain ⟨rfl, rfl⟩ := hr.unique (setCrypto_any SA w)
  rcases h with hf | ho | hz
  · exact absurd hc (no_chunks (w := { w with st := { w.st with
      draws := w.st.draws + 1, hashes := w.st.hashes + 1 } }) hf n o q w2 hg).1
  · simp [keyOf, ho]
  · simp [keyOf, hz]

/-- Alice on a host where `crypto_pwhash` runs out of memory. -/
def starvedClient : ClientEnv := { aliceClient with host := { quietHost with oom := fun _ => true } }

/-- Her file goes out under the cleared key. -/
theorem starved_upload_key : ¬ KeyFitsSalt starvedClient 0 ⟨u64Enc 0, [], []⟩ [97] ⟨aliceHome, [], false, [], []⟩ := by
  intro h
  rcases h.derived with hf | ho | hz
  · have hsome : aliceHome.fs.openRead [] [97] = some ⟨[1, 2, 3], false⟩ := by decide
    exact absurd (hf.symm.trans hsome) (by simp)
  · cases ho
  · exact absurd hz (by decide)

/-! ## The end of the loop -/

/-- The prefix of chunk `j` was offered with the value `v`. -/
def Announces (C : ClientEnv) (act j : Nat) (v : Int) (o : List (Role × Bytes)) : Prop :=
  ∃ n, n.length = 8 ∧ (⟨act, .chunkPrefix j⟩, frame C.na.aead C.client_tx n (i32Enc v)) ∈ o

/-- The chunks offered are chunks of `cs`. Of each one before the `j`-th the length
was offered and, if the outcomes `os` let it through whole, right behind it the
data. -/
structure Carries (act : Nat) (cs : List Bytes) (os : List (Option Nat)) (j : Nat) (o : List (Role × Bytes)) :
    Prop where
  only : ∀ i b, (⟨act, .chunk i⟩, b) ∈ o → ∃ c, cs[i]? = some c ∧ (b = u64Enc c.length ∨ b = c)
  all : ∀ i < j, ∃ c k, cs[i]? = some c ∧ o[k]? = some (⟨act, .chunk i⟩, u64Enc c.length) ∧
    (accepts (os.drop k) 8 = 8 → o[k + 1]? = some (⟨act, .chunk i⟩, c))

/-- `END_CHUNK` is announced with the last of `cs` only, behind all the others. -/
def EndsComplete (C : ClientEnv) (act : Nat) (cs : List Bytes) (os : List (Option Nat)) (o : List (Role × Bytes)) :
    Prop :=
  ∀ j, Announces C act j END_CHUNK o → cs.length = j + 1 ∧ Carries act cs os j o

/-- The chunks of the whole file, under the agent's key. -/
def fileChunks (C : ClientEnv) (SA : SenderAgent) (file_name : Bytes) (st : ClientState) : List Bytes :=
  match st.fs.openRead C.cwd file_name with
  | none => []
  | some src =>
    pushAll C.na.ss (C.na.ss.initPush (fit STREAM_HEADERBYTES (C.host.rand st.draws)) SA.key).1
      (cut CHUNK_SIZE src.bytes)

/-- The upload ends, and announces no end before that of the file. -/
def UploadEnds (C : ClientEnv) (φ : Option Nat) (act : Nat) (SA : SenderAgent) (file_name : Bytes)
    (w : World ClientState Role) : Prop :=
  Halts (C.encryptOn φ act SA file_name) w ∧
    ∀ SA' w1 n o q w2, Runs (C.setCrypto SA) w SA' w1 →
      Goes n (C.sendKeyed φ act SA' file_name) w1 o q w2 →
      EndsComplete C act (fileChunks C SA' file_name w1.st) w1.outcomes o

section
variable {C : ClientEnv} {SA : SenderAgent} {act : Nat} {cs : List Bytes} {os : List (Option Nat)}
  {o : List (Role × Bytes)}

theorem announces_append {j : Nat} {v : Int} {ps : List (Role × Bytes)} :
    Announces C act j v (o ++ ps) ↔ Announces C act j v o ∨ Announces C act j v ps := by
  unfold Announces
  constructor
  · rintro ⟨n, hn, h⟩
    rcases List.mem_append.mp h with h | h
    · exact .inl ⟨n, hn, h⟩
    · exact .inr ⟨n, hn, h⟩
  · rintro (⟨n, hn, h⟩ | ⟨n, hn, h⟩)
    · exact ⟨n, hn, List.mem_append_left _ h⟩
    · exact ⟨n, hn, List.mem_append_right _ h⟩

/-- A round announces its own chunk, with the value of its prefix. -/
theorem announces_round {g : C.Sending} {ps : List (Role × Bytes)} (hps : ps <+: roundPieces C act g) {j : Nat}
    (h : Announces C act j END_CHUNK ps) : j = g.1 ∧ (g.2.1.read CHUNK_SIZE).2.eofbit = true := by
  obtain ⟨n, hn, h⟩ := h
  have hmem := hps.subset h
  simp only [roundPieces, List.mem_cons, Prod.mk.injEq, Role.mk.injEq, Kind.chunkPrefix.injEq, true_and,
    reduceCtorEq, false_and, List.not_mem_nil, or_false] at hmem
  obtain ⟨hj, hframe⟩ := hmem
  refine ⟨hj, ?_⟩
  obtain ⟨-, hm⟩ := frame_inj hn (by simp) hframe
  by_contra he
  simp only [he, if_false] at hm
  exact absurd hm (by decide)

theorem announces_init {file_name header : Bytes} {ps : List (Role × Bytes)} {j : Nat} {v : Int}
    (hps : ps <+: initPieces C act SA file_name header) : ¬ Announces C act j v ps := by
  rintro ⟨n, -, h⟩
  have h := hps.subset h
  simp [initPieces] at h

/-- Pieces of a round keep to `cs` when its push does. -/
theorem Carries.round {g : C.Sending} {ps : List (Role × Bytes)} (h : Carries act cs os g.1 o)
    (hc : cs[g.1]? = some (pushOf C g).2) (hps : ps <+: roundPieces C act g) : Carries act cs os g.1 (o ++ ps) := by
  constructor
  · intro i b hb
    rcases List.mem_append.mp hb with hb | hb
    · exact h.only i b hb
    · have hb := hps.subset hb
      simp only [roundPieces, List.mem_cons, Prod.mk.injEq, Role.mk.injEq, Kind.chunk.injEq, true_and,
        reduceCtorEq, false_and, List.not_mem_nil, or_false, false_or] at hb
      rcases hb with ⟨rfl, rfl⟩ | ⟨rfl, rfl⟩
      · exact ⟨_, hc, .inl rfl⟩
      · exact ⟨_, hc, .inr rfl⟩
  · intro i hi
    obtain ⟨c, k, hc, hk, hd⟩ := h.all i hi
    have happ : ∀ (k : Nat) x, o[k]? = some x → (o ++ ps)[k]? = some x := by
      intro k x hx
      rw [List.getElem?_append_left (List.getElem?_eq_some_iff.mp hx).1, hx]
    exact ⟨c, k, hc, happ _ _ hk, fun hw => happ _ _ (hd hw)⟩

/-- The length of the chunk is the second piece, and the data the third. -/
theorem Carries.next {g : C.Sending} {ps : List (Role × Bytes)} (h : Carries act cs os g.1 o)
    (hc : cs[g.1]? = some (pushOf C g).2) (hps : ps <+: roundPieces C act g) (h2 : 2 ≤ ps.length)
    (h3 : accepts (os.drop (o.length + 1)) 8 = 8 → 3 ≤ ps.length) : Carries act cs os (g.1 + 1) (o ++ ps) := by
  refine ⟨(h.round hc hps).only, fun i hi => ?_⟩
  by_cases he : i = g.1
  · subst he
    have hget : ∀ k, k < ps.length → (o ++ ps)[o.length + k]? = (roundPieces C act g)[k]? := by
      intro k hk
      rw [List.getElem?_append_right (by omega), Nat.add_sub_cancel_left]
      obtain ⟨ts, hts⟩ := hps
      rw [← hts, List.getElem?_append_left hk]
    refine ⟨_, o.length + 1, hc, hget 1 (by omega), fun hw => ?_⟩
    exact hget 2 (h3 hw)
  · exact (h.round hc hps).all i (by omega)

variable (C act) in
/-- A stream that fails: no end is announced. -/
theorem always_sendLoop_bad {g : C.Sending} (hb : g.2.1.bad = true) (he : g.2.1.eofbit = false)
    (ho : ∀ j, ¬ Announces C act j END_CHUNK o) (w : World ClientState Role) :
    Always (OnState fun o _ => ∀ j, ¬ Announces C act j END_CHUNK o) (loop (C.sendRound act) g)
      (fun _ _ _ => True) o w := by
  refine Always.loop (J := fun g o _ => (∀ j, ¬ Announces C act j END_CHUNK o) ∧ g.2.1.bad = true ∧
    g.2.1.eofbit = false) ?_ ⟨ho, hb, he⟩
  rintro g o w ⟨ho, hb, he⟩
  have hne := read_eofbit_of_bad hb he CHUNK_SIZE
  have hno : ∀ ps, ps <+: roundPieces C act g → ∀ j, ¬ Announces C act j END_CHUNK (o ++ ps) := by
    intro ps hps j hj
    rcases announces_append.mp hj with hj | hj
    · exact ho j hj
    · exact absurd (announces_round hps hj).2 (by simp [hne])
  refine always_sendRound hno fun ps w' hps _ _ _ _ => ?_
  rw [roundEnds_more hne]
  exact ⟨hno ps hps, (read_bad _ _).trans hb, hne⟩

/-- A file that can be read: the rounds go through its chunks, and the last one
announces the end. -/
theorem always_sendLoop_file (rest : Bytes) {j : Nat} {state : C.na.ss.State} {nonce : Bytes}
    (hcs : cs.drop j = pushAll C.na.ss state (cut CHUNK_SIZE rest)) (ho : ∀ j, ¬ Announces C act j END_CHUNK o)
    (hcar : Carries act cs os j o) (w : World ClientState Role) (hos : w.outcomes = os.drop o.length) :
    Always (OnState fun o _ => EndsComplete C act cs os o)
      (loop (C.sendRound act) (j, IStream.fresh rest, state, nonce)) (fun _ o _ => EndsComplete C act cs os o)
      o w := by
  refine Always.loop (J := fun g o w => ((∀ j, ¬ Announces C act j END_CHUNK o) ∧ Carries act cs os g.1 o ∧
    ∃ rest, g.2.1 = IStream.fresh rest ∧ cs.drop g.1 = pushAll C.na.ss g.2.2.1 (cut CHUNK_SIZE rest)) ∧
    w.outcomes = os.drop o.length) ?_ ⟨⟨ho, hcar, rest, rfl, hcs⟩, hos⟩
  rintro ⟨j, file, state, nonce⟩ o w ⟨⟨ho, hcar, rest, rfl, hcs⟩, hos⟩
  by_cases hr : rest.length < CHUNK_SIZE
  · have hread := IStream.read_short hr
    have hpush : pushOf C (j, IStream.fresh rest, state, nonce) = C.na.ss.push state rest TAG_FINAL := by
      simp only [pushOf, hread, IStream.ended_eofbit, if_true]
    rw [cut_short chunk_size_pos hr, pushAll] at hcs
    have hlen : cs.length = j + 1 := by
      have hl := congrArg List.length hcs
      simp only [List.length_drop, List.length_singleton] at hl
      omega
    have hc : cs[j]? = some (C.na.ss.push state rest TAG_FINAL).2 := by
      rw [← Nat.add_zero j, ← List.getElem?_drop, hcs]
      rfl
    have hend : ∀ ps, ps <+: roundPieces C act (j, IStream.fresh rest, state, nonce) →
        EndsComplete C act cs os (o ++ ps) := by
      intro ps hps i hi
      rcases announces_append.mp hi with hi | hi
      · exact absurd hi (ho i)
      · obtain ⟨rfl, -⟩ := announces_round hps hi
        exact ⟨hlen, hcar.round (by rw [hpush]; exact hc) hps⟩
    refine always_sendRound hend fun ps w' hps _ _ _ _ => ?_
    rw [roundEnds_last (by simp only [hread, IStream.ended_eofbit])]
    exact hend ps hps
  · have hr := Nat.le_of_not_lt hr
    have hread := IStream.read_full hr
    have hpush : pushOf C (j, IStream.fresh rest, state, nonce) = C.na.ss.push state (rest.take CHUNK_SIZE) 0 := by
      simp only [pushOf, hread, IStream.fresh_eofbit, Bool.false_eq_true, if_false]
    have hdrop : cs.drop j = (C.na.ss.push state (rest.take CHUNK_SIZE) 0).2 ::
        pushAll C.na.ss (C.na.ss.push state (rest.take CHUNK_SIZE) 0).1 (cut CHUNK_SIZE (rest.drop CHUNK_SIZE)) := by
      rw [hcs, cut_long chunk_size_pos hr]
      obtain ⟨m, ms, hms⟩ := List.exists_cons_of_ne_nil (cut_ne_nil chunk_size_pos (rest.drop CHUNK_SIZE))
      rw [hms]
      rfl
    have hc : cs[j]? = some (C.na.ss.push state (rest.take CHUNK_SIZE) 0).2 := by
      rw [← Nat.add_zero j, ← List.getElem?_drop, hdrop]
      rfl
    have hno : ∀ ps, ps <+: roundPieces C act (j, IStream.fresh rest, state, nonce) →
        ∀ i, ¬ Announces C act i END_CHUNK (o ++ ps) := by
      intro ps hps i hi
      rcases announces_append.mp hi with hi | hi
      · exact ho i hi
      · exact absurd (announces_round hps hi).2 (by simp only [hread, IStream.fresh_eofbit]; simp)
    refine always_sendRound (fun ps hps i hi => absurd hi (hno ps hps i)) fun ps w' hps h2 h3 _ hos' => ?_
    rw [roundEnds_more (by simp only [hread, IStream.fresh_eofbit])]
    rw [hos, List.drop_drop] at h3
    refine ⟨⟨hno ps hps, hcar.next (by rw [hpush]; exact hc) hps h2 h3, rest.drop CHUNK_SIZE, ?_, ?_⟩, ?_⟩
    · simp only [hread]
    · rw [← List.drop_drop, hdrop, hpush]
      rfl
    · rw [hos', hos, List.drop_drop, List.length_append]

theorem EndsComplete.of_none (h : ∀ j, ¬ Announces C act j END_CHUNK o) : EndsComplete C act cs os o :=
  fun j hj => absurd hj (h j)

/-- Whatever the reads do, no end is announced before that of the file. -/
theorem always_endsComplete (φ : Option Nat) (file_name : Bytes) (w : World ClientState Role) :
    Always (OnState fun o _ => EndsComplete C act (fileChunks C SA file_name w.st) w.outcomes o)
      (C.sendKeyed φ act SA file_name) (fun _ _ _ => True) [] w := by
  have hnil : EndsComplete C act (fileChunks C SA file_name w.st) w.outcomes [] := by
    rintro j ⟨n, -, h⟩
    simp at h
  refine Always.bind (Always.read hnil ?_)
  refine Always.bind (Always.act hnil hnil ?_)
  cases hf : w.st.fs.openRead C.cwd file_name with
  | none =>
    have hone : EndsComplete C act (fileChunks C SA file_name w.st) w.outcomes
        ([] ++ [(⟨act, .fileExists⟩, frame C.na.aead C.client_tx (sodiumIncrement SA.nonce) [0])]) := by
      rintro j ⟨n, -, h⟩
      simp at h
    refine Always.bind (Always.bind (Always.sendFrame hnil hone fun w1 _ _ => ?_))
    exact Always.pure hone (Always.pure hone trivial)
  | some src =>
    obtain ⟨src', hsrc⟩ : ∃ src', (some src).map (failing φ) = some src' := ⟨_, rfl⟩
    have hno : ∀ ps, ps <+: initPieces C act SA file_name
        (C.na.ss.initPush (fit STREAM_HEADERBYTES (C.host.rand w.st.draws)) SA.key).2 →
        ∀ j, ¬ Announces C act j END_CHUNK ps := fun ps hps j => announces_init hps
    rw [hsrc]
    refine Always.bind (always_initSend (fun ps hps => EndsComplete.of_none (hno ps hps)) fun w1 _ hos1 => ?_)
    cases hb : src'.bad with
    | true =>
      have hloop := always_sendLoop_bad C act (g := (0, IStream.ofSource src',
        (C.na.ss.initPush (fit STREAM_HEADERBYTES (C.host.rand w.st.draws)) SA.key).1,
        sodiumIncrement (sodiumIncrement (sodiumIncrement (sodiumIncrement SA.nonce))))) hb rfl
        (hno _ (List.prefix_refl _)) w1
      refine Always.bind fun n o' q w' hg => ?_
      obtain ⟨h1, -⟩ := hloop n o' q w' hg
      exact ⟨.of_none h1, fun a _ => Always.pure (EndsComplete.of_none h1) trivial⟩
    | false =>
      -- then the disk does not fail, and all of the file is read
      obtain ⟨rfl, rfl⟩ : φ = none ∧ src' = src := by
        cases φ with
        | none => exact ⟨rfl, (Option.some.inj hsrc).symm⟩
        | some k =>
          obtain rfl := Option.some.inj hsrc
          cases hb
      obtain ⟨c, bad⟩ := src'
      obtain rfl : bad = false := hb
      have hcs : fileChunks C SA file_name w.st = pushAll C.na.ss
          (C.na.ss.initPush (fit STREAM_HEADERBYTES (C.host.rand w.st.draws)) SA.key).1 (cut CHUNK_SIZE c) := by
        simp only [fileChunks, hf]
      refine Always.bind (Always.mono (always_sendLoop_file c (j := 0) ?_ (hno _ (List.prefix_refl _))
        ⟨?_, by simp⟩ w1 (by rw [hos1]; rfl)) fun _ _ _ h _ => Always.pure h trivial)
      · rw [List.drop_zero]
        exact hcs
      · intro i b hb
        simp [initPieces] at hb

theorem runs_sendRound_ends {g : C.Sending} {w w' : World ClientState Role} {x : C.Sending ⊕ Bytes}
    (h : Runs (C.sendRound act g) w x w') : x = roundEnds C g := by
  rw [sendRound_eq] at h
  rw [runs_bind] at h
  obtain ⟨_, w1, -, h⟩ := h
  rw [runs_bind] at h
  obtain ⟨_, w2, -, h⟩ := h
  exact ((runs_pure _ _ _ _).mp h).1

/-- Whatever becomes of the sends, the loop does not end on a stream that fails. -/
theorem not_halts_sendLoop {g : C.Sending} (hb : g.2.1.bad = true) (he : g.2.1.eofbit = false)
    (w : World ClientState Role) : ¬ Halts (loop (C.sendRound act) g) w := by
  rintro ⟨b, w', h⟩
  refine Runs.loop_induct (I := fun g _ => g.2.1.bad = true ∧ g.2.1.eofbit = false) (Q := fun _ _ => False)
    ?_ ?_ ⟨hb, he⟩ h
  · intro g w g' w' hI hr
    have hx := runs_sendRound_ends hr
    rw [roundEnds_more (read_eofbit_of_bad hI.1 hI.2 _)] at hx
    obtain rfl := Sum.inl.inj hx
    exact ⟨(read_bad _ _).trans hI.1, read_eofbit_of_bad hI.1 hI.2 _⟩
  · intro g w b w' hI hr
    have hx := runs_sendRound_ends hr
    rw [roundEnds_more (read_eofbit_of_bad hI.1 hI.2 _)] at hx
    cases hx

variable (C act) in
/-- The upload ends when no read fails, and only then. -/
theorem halts_encryptOn_iff (φ : Option Nat) (SA : SenderAgent) (file_name : Bytes) (w : World ClientState Role) :
    Halts (C.encryptOn φ act SA file_name) w ↔
      ∀ src, w.st.fs.openRead C.cwd file_name = some src → src.bad = false ∧ φ = none := by
  have hset := setCrypto_any (C := C) SA w
  let x := C.na.ss.initPush (fit STREAM_HEADERBYTES (C.host.rand (w.st.draws + 1))) (keyOf C w.st)
  let w1 : World ClientState Role :=
    { w with st := { w.st with draws := w.st.draws + 2, hashes := w.st.hashes + 1 } }
  cases hf : w.st.fs.openRead C.cwd file_name with
  | none =>
    refine ⟨fun _ src h => absurd h (by simp), fun _ => ?_⟩
    obtain ⟨w2, h1, -⟩ := sendFrame_any C.na.aead (⟨act, .fileExists⟩ : Role) [0] C.client_tx SA.nonce w1
    refine ⟨1, w2, Runs.bind hset ?_⟩
    refine Runs.read_bind ?_
    simp only [hf]
    refine Runs.modifyGet_bind ?_
    refine Runs.bind (Runs.bind h1 ((runs_pure _ _ _ _).mpr ⟨rfl, rfl⟩)) ?_
    exact (runs_pure _ _ _ _).mpr ⟨rfl, rfl⟩
  | some src =>
    obtain ⟨w2, hinit⟩ := initSend_any (C := C) act ⟨SA.nonce, keyOf C w.st, saltOf C w.st⟩
      (failing φ src) file_name x.2 w1
    -- the loop is reached, so the upload ends when the loop does
    have hloop : Halts (C.encryptOn φ act SA file_name) w ↔ Halts (loop (C.sendRound act) (0,
        IStream.ofSource (failing φ src), x.1,
        sodiumIncrement (sodiumIncrement (sodiumIncrement (sodiumIncrement SA.nonce))))) w2 := by
      constructor
      · intro h
        have h := (h.of_bind hset).of_bind ((runs_read _ _ _ _).mpr ⟨rfl, rfl⟩)
        simp only [hf] at h
        have h := (h.of_bind ((runs_modifyGet _ _ _ _).mpr ⟨rfl, rfl⟩)).of_bind hinit
        obtain ⟨b, w4, h⟩ := h
        obtain ⟨n, w3, h, -⟩ := (runs_bind _ _ _ _ _).mp h
        exact ⟨n, w3, h⟩
      · rintro ⟨n, w3, h⟩
        refine ⟨0, w3, Runs.bind hset ?_⟩
        refine Runs.read_bind ?_
        simp only [hf]
        refine Runs.modifyGet_bind ?_
        exact Runs.bind hinit (Runs.bind h ((runs_pure _ _ _ _).mpr ⟨rfl, rfl⟩))
    rw [hloop]
    constructor
    · intro h src' hsrc
      obtain rfl := Option.some.inj hsrc
      by_contra hbad
      refine not_halts_sendLoop (g := (0, IStream.ofSource (failing φ src), x.1, _)) ?_ rfl w2 h
      cases φ with
      | none => simpa [failing, IStream.ofSource] using hbad
      | some k => rfl
    · intro h
      obtain ⟨hbad, rfl⟩ := h src rfl
      obtain ⟨c, bad⟩ := src
      obtain rfl : bad = false := hbad
      obtain ⟨n, w3, hr⟩ := sendLoop_any (C := C) act c 0 x.1
        (sodiumIncrement (sodiumIncrement (sodiumIncrement (sodiumIncrement SA.nonce)))) w2
      exact ⟨n, w3, hr⟩

end

/-- The upload ends, with no end announced before that of the file, exactly when
there is no file or all of it can be read. -/
theorem upload_loop_ends_iff (C : ClientEnv) (φ : Option Nat) (act : Nat) (SA : SenderAgent) (file_name : Bytes)
    (w : World ClientState Role) :
    UploadEnds C φ act SA file_name w ↔
      ∀ src, w.st.fs.openRead C.cwd file_name = some src → src.bad = false ∧ φ = none := by
  rw [← halts_encryptOn_iff C act φ SA file_name w]
  refine ⟨fun h => h.1, fun h => ⟨h, fun SA' w1 n o q w2 _ hg => ?_⟩⟩
  exact (always_endsComplete φ file_name w1 n o q w2 hg).1

/-- Alice names the directory she is in. -/
theorem directory_upload_endless :
    aliceHome.fs.openRead aliceClient.cwd dot = some ⟨[], true⟩ ∧
      ¬ UploadEnds aliceClient none 0 ⟨u64Enc 0, [], []⟩ dot ⟨aliceHome, [], false, [], []⟩ := by
  have hdir : aliceHome.fs.openRead aliceClient.cwd dot = some ⟨[], true⟩ := by decide
  refine ⟨hdir, fun h => ?_⟩
  obtain ⟨hbad, -⟩ := (halts_encryptOn_iff _ _ none _ dot _).mp h.1 _ hdir
  cases hbad

end Mefsc.L4
