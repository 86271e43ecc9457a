import Mefsc.Core.Seen
import Mefsc.L4App.Intake

/-!
# What the server's answers owe to uninitialised memory

`unwrap` has an upper bound for a message and no lower one, so what a handler keeps
it in may hold, behind the message, what was in memory before. `MemoryFree p E w`:
what is seen of the handler `p` does not depend on that memory.
-/
namespace Mefsc.L4

open L1 L1.SessionEncWrapper L2 L3
open Proc hiding ret recv send act iter bind

/-- The server, with another memory. -/
def withMemory (E : ServerEnv) (m : Nat → Bytes) : ServerEnv := { E with host := { E.host with stack := m } }

/-- The names that were opened, and the files. -/
def onDisk (s : FsOperator) : List Bytes × FS := (s.names, s.fs)

def MemoryFree {α : Type} (p : ServerEnv → Server α) (E : ServerEnv) (w : World FsOperator Role) : Prop :=
  Blind onDisk (fun m => p (withMemory E m)) w

/-! ## What is not seen -/

section
variable {α : Type} {E : ServerEnv} {st : FsOperator} {inp : Bytes} {e : Bool} {h : List (Ev Role)}
  {os : List (Option Nat)}

theorem silent_ofSock (r : Role) (w : World FsOperator Role) : Silent onDisk (ofSock r) w :=
  (L1.Law.ofSock (silent_law onDisk) r).silent w

theorem silent_freshNonce (E : ServerEnv) (w : World FsOperator Role) : Silent onDisk E.freshNonce w :=
  ((silent_law onDisk).bind ((silent_law onDisk).modifyGet fun _ => ⟨rfl, rfl⟩) fun _ =>
    (silent_law onDisk).modifyGet fun _ => ⟨rfl, rfl⟩).silent w

theorem blind_uninit {k : (Nat → Bytes) → Bytes → Server α} :
    Blind onDisk (fun m => (withMemory E m).uninit >>= k m) ⟨st, inp, e, h, os⟩ ↔
      Blind onDisk (fun m => k m (m st.locals)) ⟨{ st with locals := st.locals + 1 }, inp, e, h, os⟩ :=
  blind_draw (fun _ => silent_act rfl) fun _ => (runs_modifyGet _ _ _ _).mpr ⟨rfl, rfl⟩

theorem seen_taken {r : Role} {k : SessionEncWrapper → Server α} {f : SessionEncWrapper} {rest : Bytes}
    (ht : takeFrame inp = some (f, rest)) :
    Seen onDisk (ofSock r >>= k) ⟨st, inp, e, h, os⟩ = Seen onDisk (k f) ⟨st, rest, e, h, os⟩ := by
  obtain ⟨evs, hr⟩ := runs_ofSock_take st e h os r ht
  rw [seen_silent (silent_ofSock r _) hr]
  exact seen_hist onDisk (k f) ⟨st, rest, e, h, os⟩ (h ++ evs)

/-- Where a frame that was not read in full gives nothing away, the frame at the
front decides. -/
theorem blind_frame {M : Type} {r : Role} {k : M → SessionEncWrapper → Server α}
    (hc : ∀ f v, f.corrupted = true → Blind onDisk (fun m => k m f) v) :
    Blind onDisk (fun m => ofSock r >>= k m) ⟨st, inp, e, h, os⟩ ↔
      ∀ f rest, takeFrame inp = some (f, rest) → f.corrupted = false →
        Blind onDisk (fun m => k m f) ⟨st, rest, e, h, os⟩ := by
  constructor
  · intro hb f rest ht _ m m'
    have hm := hb m m'
    rwa [seen_taken ht, seen_taken ht] at hm
  · intro hb
    rw [blind_silent (silent_ofSock r _)]
    intro f v hr
    cases hf : f.corrupted with
    | true => exact hc f v hf
    | false =>
      obtain ⟨rest, evs, rfl, ht, -⟩ := ofSock_taken hr hf
      intro m m'
      have hm := hb f rest ht hf m m'
      rwa [← seen_hist onDisk (k m f) _ (h ++ evs), ← seen_hist onDisk (k m' f) _ (h ++ evs)] at hm

end

/-! ## The notice and the intent -/

section
variable (E : ServerEnv)

/-- The frame at the front of a stream has the message `b`. -/
def Brings (inp : Bytes) (b : Bytes) : Prop :=
  ∃ f rest, takeFrame inp = some (f, rest) ∧ f.corrupted = false ∧ Verified E.na.aead E.server_rx f b

end

section
variable {E : ServerEnv} {f : SessionEncWrapper}

/-- An answer that looks at the message only. -/
theorem answer_iff {α : Type} (hf : Taken f) (cap : Nat) (bad : α) (good : Bytes → α) :
    (∀ x y : Bytes,
      (if (f.unwrap E.na.aead E.server_rx cap (fit cap x) 0).ret ≠ 0 then bad
        else good (f.unwrap E.na.aead E.server_rx cap (fit cap x) 0).decrypted_data) =
      if (f.unwrap E.na.aead E.server_rx cap (fit cap y) 0).ret ≠ 0 then bad
        else good (f.unwrap E.na.aead E.server_rx cap (fit cap y) 0).decrypted_data) ↔
      ∀ b, Verified E.na.aead E.server_rx f b → b.length ≤ cap → ∀ x y : Bytes,
        good (blit b (fit cap x)) = good (blit b (fit cap y)) := by
  constructor
  · intro h b hv hb x y
    have hxy := h x y
    rwa [unwrap_verified hf hv hb, unwrap_verified hf hv hb, if_neg (by simp), if_neg (by simp)] at hxy
  · intro h x y
    by_cases h0 : ∃ m, Verified E.na.aead E.server_rx f m ∧ m.length ≤ cap
    · obtain ⟨b, hv, hb⟩ := h0
      rw [unwrap_verified hf hv hb, unwrap_verified hf hv hb, if_neg (by simp), if_neg (by simp)]
      exact h b hv hb x y
    · have hx := mt (unwrap_ret_zero_iff hf cap (fit cap x) 0).mp h0
      have hy := mt (unwrap_ret_zero_iff hf cap (fit cap y) 0).mp h0
      rw [if_pos hx, if_pos hy]

end

theorem blit_fit_length {b : Bytes} {n : Nat} (hb : b.length ≤ n) (x : Bytes) : (blit b (fit n x)).length = n := by
  simp only [blit, List.length_append, List.length_drop, fit_length]
  omega

/-- A buffer that is filled does not show what was in it. -/
theorem blit_fit_full {b : Bytes} {n : Nat} (hb : b.length = n) (x : Bytes) : blit b (fit n x) = b :=
  blit_eq_of_length (by rw [fit_length, hb])

theorem blit_fit_of_begins {b c : Bytes} {n : Nat} (hc : c.length = n) (h : b <+: c) : blit b (fit n c) = c := by
  obtain ⟨t, rfl⟩ := h
  rw [fit_of_length hc]
  simp [blit]

theorem i32Dec_inj {b c : Bytes} (hb : b.length = 4) (hc : c.length = 4) (h : i32Dec b = i32Dec c) : b = c := by
  rw [← i32Enc_i32Dec hb, h, i32Enc_i32Dec hc]

/-- One that is not does: to two memories that differ behind it. -/
theorem blit_fit_differ {b : Bytes} {n : Nat} (hb : b.length < n) :
    blit b (fit n (List.replicate n 0)) ≠ blit b (fit n (List.replicate n 1)) := by
  intro h
  rw [fit_of_length (List.length_replicate ..), fit_of_length (List.length_replicate ..)] at h
  have hd := List.append_cancel_left h
  rw [List.drop_replicate, List.drop_replicate, List.replicate_inj] at hd
  rcases hd.2 with h0 | h1
  · omega
  · exact absurd h1 (by decide)

section
variable {E : ServerEnv} {w : World FsOperator Role} (act : Nat)

/-- The notice is short, and so far one of a new action. -/
def ShortNotice (E : ServerEnv) (inp : Bytes) : Prop :=
  ∃ b, Brings E inp b ∧ b.length < 4 ∧ b <+: i32Enc NEW_ACTION

def ShortIntent (E : ServerEnv) (inp : Bytes) : Prop := ∃ b, Brings E inp b ∧ b.length < 4

/-- What `receive_notice_of_new_action` returns for the four bytes. -/
def noticeAnswer (b : Bytes) : Int := if i32Dec b ≠ NEW_ACTION then 1 else 0

theorem noticeAnswer_iff {b : Bytes} (hb : b.length ≤ 4) :
    (∀ x y : Bytes, noticeAnswer (blit b (fit 4 x)) = noticeAnswer (blit b (fit 4 y))) ↔
      ¬ (b.length < 4 ∧ b <+: i32Enc NEW_ACTION) := by
  have hnew : i32Dec (i32Enc NEW_ACTION) = NEW_ACTION := i32Dec_i32Enc (by decide) (by decide)
  have hanswer {c : Bytes} (hc : c.length = 4) (h : ¬ b <+: i32Enc NEW_ACTION) (hpre : b <+: c) :
      noticeAnswer c = 1 := by
    refine if_pos fun heq => h ?_
    rwa [← i32Dec_inj hc (i32Enc_length _) (heq.trans hnew.symm)]
  constructor
  · rintro h ⟨hlt, hpre⟩
    have h0 := h (i32Enc NEW_ACTION)
    have hzero : noticeAnswer (i32Enc NEW_ACTION) = 0 := if_neg (by simp [hnew])
    rw [blit_fit_of_begins (i32Enc_length _) hpre, hzero] at h0
    have hall (x : Bytes) : blit b (fit 4 x) = i32Enc NEW_ACTION := by
      refine i32Dec_inj (blit_fit_length hb x) (i32Enc_length _) ?_
      by_contra hne
      rw [hnew] at hne
      have h1 : noticeAnswer (blit b (fit 4 x)) = 1 := if_pos hne
      exact absurd ((h0 x).trans h1) (by decide)
    exact blit_fit_differ hlt ((hall _).trans (hall _).symm)
  · intro h x y
    rcases Nat.lt_or_eq_of_le hb with hlt | heq
    · have hpre : ¬ b <+: i32Enc NEW_ACTION := fun hp => h ⟨hlt, hp⟩
      have hb4 (z : Bytes) : b <+: blit b (fit 4 z) := List.prefix_append _ _
      rw [hanswer (blit_fit_length hb x) hpre (hb4 x), hanswer (blit_fit_length hb y) hpre (hb4 y)]
    · rw [blit_fit_full heq, blit_fit_full heq]

/-- A handler that draws memory, reads a frame and answers with a value. -/
theorem memoryFree_answer {r : Role} {α : Type} (bad corrupt : α) (good : Bytes → α) :
    MemoryFree (fun E => E.uninit >>= fun x => ofSock r >>= fun f => if f.corrupted then pure corrupt
        else if (f.unwrap E.na.aead E.server_rx 4 (fit 4 x) 0).ret ≠ 0 then pure bad
        else pure (good (f.unwrap E.na.aead E.server_rx 4 (fit 4 x) 0).decrypted_data)) E w ↔
      ∀ b, Brings E w.inp b → b.length ≤ 4 → ∀ x y : Bytes, good (blit b (fit 4 x)) = good (blit b (fit 4 y)) := by
  obtain ⟨st, inp, e, h, os⟩ := w
  unfold MemoryFree
  rw [blind_uninit, blind_frame]
  · constructor
    · rintro hb b ⟨f, rest, ht, hf, hv⟩ hlen x y
      have hf' := takeFrame_taken ht hf
      have hm := hb f rest ht hf
      simp only [hf, Bool.false_eq_true, if_false] at hm
      simp only [← apply_ite (pure : α → Server α)] at hm
      rw [blind_pure] at hm
      exact (answer_iff hf' 4 bad good).mp (fun x y => hm (fun _ => x) fun _ => y) b hv hlen x y
    · intro hb f rest ht hf
      have hf' := takeFrame_taken ht hf
      simp only [hf, Bool.false_eq_true, if_false]
      simp only [← apply_ite (pure : α → Server α)]
      rw [blind_pure]
      intro m m'
      exact (answer_iff hf' 4 bad good).mpr (fun b hv hlen => hb b ⟨f, rest, ht, hf, hv⟩ hlen) _ _
  · intro f v hf m m'
    simp only [hf, if_true]

theorem receiveNotice_free :
    MemoryFree (fun E => E.receiveNoticeOfNewAction act) E w ↔ ¬ ShortNotice E w.inp := by
  have heq (E : ServerEnv) : E.receiveNoticeOfNewAction act =
      (E.uninit >>= fun x => ofSock ⟨act, .notice⟩ >>= fun f => if f.corrupted then pure 3
        else if (f.unwrap E.na.aead E.server_rx 4 (fit 4 x) 0).ret ≠ 0 then pure 2
        else pure (noticeAnswer (f.unwrap E.na.aead E.server_rx 4 (fit 4 x) 0).decrypted_data)) := by
    unfold ServerEnv.receiveNoticeOfNewAction noticeAnswer
    simp only [apply_ite (pure : Int → Server Int)]
  simp only [heq]
  rw [memoryFree_answer]
  constructor
  · rintro h ⟨b, hb, hlt, hpre⟩
    exact (noticeAnswer_iff hlt.le).mp (h b hb hlt.le) ⟨hlt, hpre⟩
  · intro h b hb hle
    exact (noticeAnswer_iff hle).mpr fun hs => h ⟨b, hb, hs⟩

theorem readIntent_free : MemoryFree (fun E => E.readIntent act) E w ↔ ¬ ShortIntent E w.inp := by
  have heq (E : ServerEnv) : E.readIntent act =
      (E.uninit >>= fun x => ofSock ⟨act, .intent⟩ >>= fun f => if f.corrupted then pure INVALID_READ_INTENT
        else if (f.unwrap E.na.aead E.server_rx 4 (fit 4 x) 0).ret ≠ 0 then pure INVALID_READ_INTENT
        else pure (i32Dec (f.unwrap E.na.aead E.server_rx 4 (fit 4 x) 0).decrypted_data)) := rfl
  simp only [heq]
  rw [memoryFree_answer]
  constructor
  · rintro h ⟨b, hb, hlt⟩
    exact blit_fit_differ hlt
      (i32Dec_inj (blit_fit_length hlt.le _) (blit_fit_length hlt.le _) (h b hb hlt.le _ _))
  · intro h b hb hle x y
    rcases Nat.lt_or_eq_of_le hle with hlt | hfull
    · exact absurd ⟨b, hb, hlt⟩ h
    · rw [blit_fit_full hfull, blit_fit_full hfull]

end

/-! ## Downloads -/

/-- The header and the salt a download reads from a file. -/
def headAndSalt (src : Source) : Bytes × Bytes :=
  (((IStream.ofSource src).read STREAM_HEADERBYTES).1,
    (((IStream.ofSource src).read STREAM_HEADERBYTES).2.read PWHASH_SALTBYTES).1)

theorem headAndSalt_le (src : Source) :
    (headAndSalt src).1.length ≤ STREAM_HEADERBYTES ∧ (headAndSalt src).2.length ≤ PWHASH_SALTBYTES :=
  ⟨IStream.read_length_le _ _, IStream.read_length_le _ _⟩

theorem headAndSalt_full_iff (src : Source) :
    ((headAndSalt src).1.length = STREAM_HEADERBYTES ∧ (headAndSalt src).2.length = PWHASH_SALTBYTES) ↔
      STREAM_HEADERBYTES + PWHASH_SALTBYTES ≤ src.bytes.length := by
  unfold headAndSalt
  rw [IStream.read_length_eq_iff _ (by decide), IStream.read_length_eq_iff _ (by decide)]
  by_cases h1 : STREAM_HEADERBYTES ≤ src.bytes.length
  · have hread : ((IStream.ofSource src).read STREAM_HEADERBYTES).2 =
        ⟨src.bytes.drop STREAM_HEADERBYTES, src.bad, false, false⟩ := by
      simp [IStream.ofSource, IStream.read, h1]
    rw [hread]
    simp only [IStream.ofSource, Bool.or_self, true_and, List.length_drop]
    omega
  · have h2 : ¬ STREAM_HEADERBYTES + PWHASH_SALTBYTES ≤ src.bytes.length := by omega
    simp [IStream.ofSource, h1, h2]

/-- A download, with its two buffers as the reads leave them. -/
def sendBuffers (E : ServerEnv) (act : Nat) (src : Source) (header salt : Bytes) : Server Int := do
  E.sendSession ⟨act, .header⟩ header
  E.sendSession ⟨act, .salt⟩ salt
  loop (E.rffsRound act) (0, (((IStream.ofSource src).read STREAM_HEADERBYTES).2.read PWHASH_SALTBYTES).2)

theorem sendFile_buffers (E : ServerEnv) (act : Nat) (src : Source) :
    E.sendFile act src = E.uninit >>= fun header => E.uninit >>= fun salt =>
      sendBuffers E act src (blit (headAndSalt src).1 (fit STREAM_HEADERBYTES header))
        (blit (headAndSalt src).2 (fit PWHASH_SALTBYTES salt)) := rfl

section
variable {E : ServerEnv} {st : FsOperator} {inp : Bytes} {e : Bool} {h : List (Ev Role)} {os : List (Option Nat)}
  (act : Nat)

/-- With all of header and salt there, a download does not show memory. -/
theorem sendFile_blind {src : Source} (hs : STREAM_HEADERBYTES + PWHASH_SALTBYTES ≤ src.bytes.length) :
    Blind onDisk (fun m => (withMemory E m).sendFile act src) ⟨st, inp, e, h, os⟩ := by
  obtain ⟨h1, h2⟩ := (headAndSalt_full_iff src).mpr hs
  simp only [sendFile_buffers, blit_fit_full h1, blit_fit_full h2]
  rw [blind_uninit, blind_uninit]
  intro m m'
  rfl

/-- The two frames of header and salt. -/
def twoFrames (E : ServerEnv) (nonce header salt : Bytes) : List (Role × Bytes) :=
  [(⟨act, .header⟩, frame E.na.aead E.server_tx (sodiumIncrement nonce) header),
    (⟨act, .salt⟩, frame E.na.aead E.server_tx (sodiumIncrement (sodiumIncrement nonce)) salt)]

theorem offers_session (r : Role) (m : Bytes) (w : World FsOperator Role) :
    ∃ w', Offers (E.sendSession r m) w [(r, frame E.na.aead E.server_tx (sodiumIncrement w.st.nonce) m)] () w' ∧
      w'.st.nonce = sodiumIncrement w.st.nonce := by
  have h1 := offers_modifyGet (ρ := Role) (fun s : FsOperator => (s.nonce, s)) w
  have h2 := offers_sendFrame E.na.aead r m E.server_tx w.st.nonce w
  have h3 (n : Bytes) (v : World FsOperator Role) := offers_modifyGet (ρ := Role)
    (fun s : FsOperator => ((), { s with nonce := n })) v
  exact ⟨_, h1.bind (h2.bind (h3 _ _)), rfl⟩

theorem seen_buffers (src : Source) (header salt : Bytes) (w : World FsOperator Role) :
    ∃ a d, (a, d, twoFrames act E w.st.nonce header salt) ∈ Seen onDisk (sendBuffers E act src header salt) w := by
  obtain ⟨w1, ⟨n1, h1⟩, hn1⟩ := offers_session (E := E) ⟨act, .header⟩ header w
  obtain ⟨w2, ⟨n2, h2⟩, -⟩ := offers_session (E := E) ⟨act, .salt⟩ salt w1
  rw [hn1] at h2
  exact ⟨_, _, ((h1.bind _).trans (h2.bind _)).seen⟩

theorem twoFrames_inj {n h1 s1 h2 s2 : Bytes} (h : twoFrames act E n h1 s1 = twoFrames act E n h2 s2) :
    h1 = h2 ∧ s1 = s2 := by
  simp only [twoFrames, List.cons.injEq, Prod.mk.injEq, true_and, and_true] at h
  exact ⟨(frame_inj (by simp) (by simp) h.1).2, (frame_inj (by simp) (by simp) h.2).2⟩

/-- With less, it does. -/
theorem sendFile_not_blind {src : Source} (hs : ¬ STREAM_HEADERBYTES + PWHASH_SALTBYTES ≤ src.bytes.length) :
    ¬ Blind onDisk (fun m => (withMemory E m).sendFile act src) ⟨st, inp, e, h, os⟩ := by
  intro hb
  simp only [sendFile_buffers] at hb
  rw [blind_uninit, blind_uninit] at hb
  have hle := headAndSalt_le src
  have key (m m' : Nat → Bytes) :
      blit (headAndSalt src).1 (fit STREAM_HEADERBYTES (m st.locals)) =
        blit (headAndSalt src).1 (fit STREAM_HEADERBYTES (m' st.locals)) ∧
      blit (headAndSalt src).2 (fit PWHASH_SALTBYTES (m (st.locals + 1))) =
        blit (headAndSalt src).2 (fit PWHASH_SALTBYTES (m' (st.locals + 1))) := by
    have hm := hb m m'
    obtain ⟨a, d, h1⟩ := seen_buffers (E := withMemory E m) act src
      (blit (headAndSalt src).1 (fit STREAM_HEADERBYTES (m st.locals)))
      (blit (headAndSalt src).2 (fit PWHASH_SALTBYTES (m (st.locals + 1))))
      ⟨{ st with locals := st.locals + 2 }, inp, e, h, os⟩
    obtain ⟨a', d', h2⟩ := seen_buffers (E := withMemory E m') act src
      (blit (headAndSalt src).1 (fit STREAM_HEADERBYTES (m' st.locals)))
      (blit (headAndSalt src).2 (fit PWHASH_SALTBYTES (m' (st.locals + 1))))
      ⟨{ st with locals := st.locals + 2 }, inp, e, h, os⟩
    have h1 := hm.subset h1
    have hpre := seen_offers h1 h2
    have hlen : ∀ {n h s h' s'}, (twoFrames act (withMemory E m) n h s).length =
      (twoFrames act (withMemory E m') n h' s').length := rfl
    rcases hpre with hpre | hpre
    · exact twoFrames_inj act (hpre.eq_of_length hlen)
    · exact (fun x => ⟨x.1.symm, x.2.symm⟩) (twoFrames_inj act (hpre.eq_of_length hlen.symm))
  have hshort : (headAndSalt src).1.length < STREAM_HEADERBYTES ∨ (headAndSalt src).2.length < PWHASH_SALTBYTES := by
    by_contra hno
    exact hs ((headAndSalt_full_iff src).mp ⟨by omega, by omega⟩)
  rcases hshort with hlt | hlt
  · exact blit_fit_differ hlt
      (key (fun _ => List.replicate STREAM_HEADERBYTES 0) fun _ => List.replicate STREAM_HEADERBYTES 1).1
  · exact blit_fit_differ hlt
      (key (fun _ => List.replicate PWHASH_SALTBYTES 0) fun _ => List.replicate PWHASH_SALTBYTES 1).2

theorem keeps_names : ServerEnv.Parts (fun {_} (p : Server _) => Keeps (fun s t => t.names = s.names) p) where
  toClosed := closed_keeps (fun _ => rfl) fun h1 h2 => h2.trans h1
  frame _ hf := keeps_modifyGet (R := fun s t : FsOperator => t.names = s.names) (fun _ => rfl) fun s => (hf s).2.2

/-- What follows the opening. -/
def answerFile (E : ServerEnv) (act : Nat) : Option Source → Server Int
  | none => return 1
  | some src => E.sendFile act src

theorem keeps_answerFile (o : Option Source) :
    Keeps (fun s t => t.names = s.names) (answerFile E act o) := by
  have hP := keeps_names
  cases o with
  | none => exact hP.pure _
  | some src =>
    refine hP.bind hP.uninit fun _ => hP.bind hP.uninit fun _ => ?_
    refine hP.bind (hP.sendSession _ _) fun _ => hP.bind (hP.sendSession _ _) fun _ => ?_
    exact Keeps.loop (R := fun s t : FsOperator => t.names = s.names) (fun _ => rfl) (fun h1 h2 => h2.trans h1)
      (hP.rffsRound act) _

theorem openIn_blind_iff {b : Bytes} {i : Nat} :
    Blind onDisk (fun m => (withMemory E m).openIn (cstr (blit b (m i))) >>= answerFile (withMemory E m) act)
        ⟨st, inp, e, h, os⟩ ↔
      0 ∈ b ∧ ∀ src, st.fs.openRead E.cwd (E.user_dir ++ cstr b) = some src →
        STREAM_HEADERBYTES + PWHASH_SALTBYTES ≤ src.bytes.length := by
  -- the name is seen when the file is opened, and stays
  have hnames {m : Nat → Bytes} {x : Option Int × (List Bytes × FS) × List (Role × Bytes)}
      (hx : x ∈ Seen onDisk ((withMemory E m).openIn (cstr (blit b (m i))) >>= answerFile (withMemory E m) act)
        ⟨st, inp, e, h, os⟩) : x.2.1.1 = st.names ∨ x.2.1.1 = st.names ++ [cstr (blit b (m i))] := by
    rcases seen_act_cases hx with rfl | hx
    · exact .inl rfl
    · obtain ⟨s, hs, hxs⟩ := (keeps_answerFile act _).seen (fun _ => rfl) hx
      rw [hxs]
      exact .inr hs
  have hsame (hm : 0 ∈ b) (x : Bytes) : cstr (blit b x) = cstr b := cstr_append_of_mem hm _
  have hmem (hb : Blind onDisk
      (fun m => (withMemory E m).openIn (cstr (blit b (m i))) >>= answerFile (withMemory E m) act)
        ⟨st, inp, e, h, os⟩) : 0 ∈ b := by
    by_contra hno
    have hx := (hb (fun _ => []) fun _ => b ++ [1]).subset seen_acted
    have hlong : cstr (blit b (b ++ [1])) = b ++ [1] := by
      have hb1 : blit b (b ++ [1]) = b ++ [1] := by simp [blit]
      rw [hb1, cstr_of_noNul (by simpa using hno)]
    have hshort : cstr (blit b []) = b := by
      have hb0 : blit b [] = b := by simp [blit]
      rw [hb0, cstr_of_noNul hno]
    have hn := hnames hx
    simp only [onDisk, hshort, hlong, List.append_cancel_left_eq] at hn
    simp at hn
  by_cases hm : 0 ∈ b
  swap
  · exact ⟨fun hb => absurd (hmem hb) hm, fun hb => absurd hb.1 hm⟩
  simp only [hsame hm, hm, true_and]
  cases ho : st.fs.openRead E.cwd (E.user_dir ++ cstr b) with
  | none =>
    refine ⟨fun _ => by simp, fun _ m m' => seen_act_congr ?_⟩
    change answerFile (withMemory E m) act (st.fs.openRead E.cwd (E.user_dir ++ cstr b)) =
      answerFile (withMemory E m') act (st.fs.openRead E.cwd (E.user_dir ++ cstr b))
    rw [ho]
    rfl
  | some src =>
    have heq (m : Nat → Bytes) : answerFile (withMemory E m) act (st.fs.openRead E.cwd (E.user_dir ++ cstr b)) =
        (withMemory E m).sendFile act src := by rw [ho]; rfl
    have hact : Blind onDisk (fun m => (withMemory E m).openIn (cstr b) >>= answerFile (withMemory E m) act)
          ⟨st, inp, e, h, os⟩ ↔
        Blind onDisk (fun m => answerFile (withMemory E m) act (st.fs.openRead E.cwd (E.user_dir ++ cstr b)))
          ⟨{ st with names := st.names ++ [cstr b] }, inp, e, h, os⟩ := by
      refine blind_act (w := ⟨st, inp, e, h, os⟩) (k := fun m => answerFile (withMemory E m) act)
        (g := fun s : FsOperator =>
          (s.fs.openRead E.cwd (E.user_dir ++ cstr b), { s with names := s.names ++ [cstr b] }))
        (fun m => ?_) fun m x hx => ?_
      · change (answerFile (withMemory E m) act (st.fs.openRead E.cwd (E.user_dir ++ cstr b))).value = none
        rw [heq]
        rfl
      · obtain ⟨s, hs, hxs⟩ := (keeps_answerFile act _).seen (fun _ => rfl) hx
        intro h0
        have hnm := congrArg Prod.fst (hxs.symm.trans h0)
        simp only [onDisk, hs] at hnm
        simp at hnm
    simp only [heq] at hact
    rw [hact]
    constructor
    · intro hb src' hsrc
      obtain rfl := Option.some.inj hsrc
      by_contra hlt
      exact sendFile_not_blind act hlt hb
    · intro hs
      exact sendFile_blind act (hs src rfl)

/-- The name of a download is not terminated, or names a file that is shorter than
header and salt. -/
def OpenName (E : ServerEnv) (fs : FS) (inp : Bytes) : Prop :=
  ∃ b, Brings E inp b ∧ b.length ≤ PRE_EXT_FILE_NAME_LEN ∧ (0 ∈ b →
    ∃ src, fs.openRead E.cwd (E.user_dir ++ cstr b) = some src ∧
      src.bytes.length < STREAM_HEADERBYTES + PWHASH_SALTBYTES)

theorem rffs_free : MemoryFree (fun E => E.rffsHandlerServer act) E ⟨st, inp, e, h, os⟩ ↔ ¬ OpenName E st.fs inp := by
  have hnonce : Runs E.freshNonce ⟨st, inp, e, h, os⟩ ()
      ⟨{ st with nonce := fit AEAD_NPUBBYTES (E.host.rand st.draws), draws := st.draws + 1 }, inp, e, h, os⟩ :=
    Runs.modifyGet_bind ((runs_modifyGet _ _ _ _).mpr ⟨rfl, rfl⟩)
  have hblind : MemoryFree (fun E => E.rffsHandlerServer act) E ⟨st, inp, e, h, os⟩ ↔
      Blind onDisk (fun m => ofSock ⟨act, .fileName⟩ >>= fun f =>
        if f.corrupted then pure 3
        else if (f.unwrap E.na.aead E.server_rx PRE_EXT_FILE_NAME_LEN (m st.locals) 0).ret ≠ 0 then pure 2
        else (withMemory E m).openIn
          (cstr (f.unwrap E.na.aead E.server_rx PRE_EXT_FILE_NAME_LEN (m st.locals) 0).decrypted_data) >>=
          answerFile (withMemory E m) act)
        ⟨{ st with nonce := fit AEAD_NPUBBYTES (E.host.rand st.draws), draws := st.draws + 1,
                   locals := st.locals + 1 }, inp, e, h, os⟩ := by
    unfold MemoryFree ServerEnv.rffsHandlerServer
    rw [blind_draw (fun m => silent_freshNonce (withMemory E m) _) fun _ => hnonce, blind_uninit]
    rfl
  rw [hblind, blind_frame fun f v hf m m' => by simp only [hf, if_true]]
  constructor
  · rintro hb ⟨b, ⟨f, rest, ht, hf, hv⟩, hlen, hbad⟩
    have hm := hb f rest ht hf
    simp only [hf, Bool.false_eq_true, if_false, unwrap_verified (takeFrame_taken ht hf) hv hlen, ne_eq,
      not_true_eq_false] at hm
    obtain ⟨hmem, hsrc⟩ := (openIn_blind_iff act).mp hm
    obtain ⟨src, hs, hlt⟩ := hbad hmem
    exact absurd (hsrc src hs) (Nat.not_le.mpr hlt)
  · intro hno f rest ht hf
    have hw := takeFrame_taken ht hf
    simp only [hf, Bool.false_eq_true, if_false]
    by_cases h0 : ∃ m, Verified E.na.aead E.server_rx f m ∧ m.length ≤ PRE_EXT_FILE_NAME_LEN
    · obtain ⟨b, hv, hb⟩ := h0
      simp only [unwrap_verified hw hv hb, ne_eq, not_true_eq_false, if_false]
      refine (openIn_blind_iff act).mpr ?_
      by_contra hbad
      refine hno ⟨b, ⟨f, rest, ht, hf, hv⟩, hb, fun hmem => ?_⟩
      by_contra hsrc
      exact hbad ⟨hmem, fun src hs => by
        by_contra hlt
        exact hsrc ⟨src, hs, Nat.lt_of_not_le hlt⟩⟩
    · intro m m'
      have hx (x : Bytes) := mt (unwrap_ret_zero_iff hw PRE_EXT_FILE_NAME_LEN x 0).mp h0
      simp only [ne_eq, hx, not_false_eq_true, if_true]

end

end Mefsc.L4
