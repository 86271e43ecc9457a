import Mefsc.L1Encoding.Offers
import Mefsc.L1Encoding.Unwrap
import Mefsc.L4App.Ends
import Mefsc.L4App.Reported

/-!
# Uploads as the server takes them in

`init_read` reads four frames and checks each in its own way: of the name it
looks for a message that is too long only, of the header for a frame that was
marked as corrupted, and of no message whether it is as long as the field it
fills. `WTFS_Handler__Server` then opens the file with truncation and writes to
it while the chunks come in.

* `Frames`, `fourFrames`: the frames at the front of a stream. `Passes`: those
  `init_read` returns 0 on (`initRead_passes`, `runs_initRead_passes`).
* `upload_starts_authentic_iff`: what it then holds is what was sent, unless one
  of those checks is missed.
* `Receives`: what the chunk loop makes of a stream, and whether it got to the
  end of the upload.
-/
namespace Mefsc.L4

open L1 L1.SessionEncWrapper L2 L3
open Proc hiding ret recv send act iter bind

/-! ## The four frames -/

structure Frames where
  flag : SessionEncWrapper
  name : SessionEncWrapper
  header : SessionEncWrapper
  salt : SessionEncWrapper
  rest : Bytes

def fourFrames (inp : Bytes) : Option Frames := do
  let (flag, r1) ← takeFrame inp
  let (name, r2) ← takeFrame r1
  let (header, r3) ← takeFrame r2
  let (salt, r4) ← takeFrame r3
  return ⟨flag, name, header, salt, r4⟩

theorem fourFrames_eq {inp r1 r2 r3 r4 : Bytes} {w1 w2 w3 w4 : SessionEncWrapper}
    (h1 : takeFrame inp = some (w1, r1)) (h2 : takeFrame r1 = some (w2, r2))
    (h3 : takeFrame r2 = some (w3, r3)) (h4 : takeFrame r3 = some (w4, r4)) :
    fourFrames inp = some ⟨w1, w2, w3, w4, r4⟩ := by
  simp [fourFrames, h1, h2, h3, h4]

theorem fourFrames_some {inp : Bytes} {f : Frames} (h : fourFrames inp = some f) :
    ∃ r1 r2 r3, takeFrame inp = some (f.flag, r1) ∧ takeFrame r1 = some (f.name, r2) ∧
      takeFrame r2 = some (f.header, r3) ∧ takeFrame r3 = some (f.salt, f.rest) := by
  unfold fourFrames at h
  simp only [Option.bind_eq_bind, Option.bind_eq_some_iff, Option.pure_def, Option.some.injEq] at h
  obtain ⟨⟨w1, r1⟩, h1, ⟨w2, r2⟩, h2, ⟨w3, r3⟩, h3, ⟨w4, r4⟩, h4, rfl⟩ := h
  exact ⟨r1, r2, r3, h1, h2, h3, h4⟩

section
variable (E : ServerEnv)

/-- What `init_read` lets through, where `len0` is what its length variable for
the name starts at. -/
structure Passes (len0 : Nat) (f : Frames) : Prop where
  whole : Taken f.flag ∧ Taken f.name ∧ Taken f.header ∧ Taken f.salt
  flag : ∃ b, b ≠ 0 ∧ Verified E.na.aead E.server_rx f.flag [b]
  name : (∃ m, Verified E.na.aead E.server_rx f.name m ∧ m.length ≤ PRE_EXT_FILE_NAME_LEN) ∨
    Forged E.na.aead E.server_rx PRE_EXT_FILE_NAME_LEN f.name ∨
    Stub f.name ∧ (len0 + ext.length) % 2 ^ 64 ≤ MAX_FILE_NAME_LENGTH
  header : (∃ m, Verified E.na.aead E.server_rx f.header m ∧ m.length ≤ STREAM_HEADERBYTES) ∨ Stub f.header
  salt : ∃ m, Verified E.na.aead E.server_rx f.salt m ∧ m.length ≤ PWHASH_SALTBYTES

/-- The buffers it leaves behind. -/
def leftBy (len0 : Nat) (buf hbuf sbuf : Bytes) (f : Frames) : Bytes × Bytes × Bytes :=
  let n := f.name.unwrap E.na.aead E.server_rx PRE_EXT_FILE_NAME_LEN buf len0
  (ServerEnv.terminate n.decrypted_data n.decrypted_data_len,
    (f.header.unwrap E.na.aead E.server_rx STREAM_HEADERBYTES hbuf 0).decrypted_data,
    (f.salt.unwrap E.na.aead E.server_rx PWHASH_SALTBYTES sbuf 0).decrypted_data)

/-- The value the length variable of the name starts at. -/
def nameLen0 (st : FsOperator) : Nat := leDec (fit 8 (E.host.stack st.locals))

end

/-! ### The four checks -/

section
variable {E : ServerEnv} {w : SessionEncWrapper}

theorem unwrap_ret_zero_iff (hw : Taken w) (cap : Nat) (buf : Bytes) (len : Nat) :
    (w.unwrap E.na.aead E.server_rx cap buf len).ret = 0 ↔
      ∃ m, Verified E.na.aead E.server_rx w m ∧ m.length ≤ cap := by
  have hu : Unwraps E.na.aead E.server_rx cap buf len w _ := hw.unwraps cap buf len
  constructor
  · intro h0
    generalize w.unwrap E.na.aead E.server_rx cap buf len = u at hu h0
    cases hu with
    | stub => cases h0
    | long => cases h0
    | forged => cases h0
    | ok m hv hm => exact ⟨m, hv, hm⟩
  · rintro ⟨m, hv, hm⟩
    rw [unwrap_verified hw hv hm]

theorem flag_iff (hw : Taken w) :
    ((w.unwrap E.na.aead E.server_rx 1 [0] 0).ret = 0 ∧
      ¬ (w.unwrap E.na.aead E.server_rx 1 [0] 0).decrypted_data.take 1 = [0]) ↔
      ∃ b, b ≠ 0 ∧ Verified E.na.aead E.server_rx w [b] := by
  constructor
  · rintro ⟨h0, hset⟩
    obtain ⟨m, hv, hm⟩ := (unwrap_ret_zero_iff hw _ _ _).mp h0
    rw [unwrap_verified hw hv hm] at hset
    match m, hm with
    | [], _ => simp at hset
    | [b], _ => exact ⟨b, by simpa [blit] using hset, hv⟩
  · rintro ⟨b, hb, hv⟩
    rw [unwrap_verified hw hv (Nat.le_refl 1)]
    exact ⟨rfl, by simpa [blit] using hb⟩

theorem name_iff (hw : Taken w) (buf : Bytes) (len0 : Nat) :
    (¬ (w.unwrap E.na.aead E.server_rx PRE_EXT_FILE_NAME_LEN buf len0).ret = 2 ∧
      ¬ MAX_FILE_NAME_LENGTH <
        ((w.unwrap E.na.aead E.server_rx PRE_EXT_FILE_NAME_LEN buf len0).decrypted_data_len + ext.length) % 2 ^ 64) ↔
      (∃ m, Verified E.na.aead E.server_rx w m ∧ m.length ≤ PRE_EXT_FILE_NAME_LEN) ∨
        Forged E.na.aead E.server_rx PRE_EXT_FILE_NAME_LEN w ∨
        Stub w ∧ (len0 + ext.length) % 2 ^ 64 ≤ MAX_FILE_NAME_LENGTH := by
  have hu : Unwraps E.na.aead E.server_rx PRE_EXT_FILE_NAME_LEN buf len0 w _ := hw.unwraps _ buf len0
  constructor
  · rintro ⟨h2, hlen⟩
    generalize w.unwrap E.na.aead E.server_rx PRE_EXT_FILE_NAME_LEN buf len0 = u at hu h2 hlen
    cases hu with
    | stub h => exact .inr (.inr ⟨h, Nat.le_of_not_lt hlen⟩)
    | long => exact absurd rfl h2
    | forged h => exact .inr (.inl h)
    | ok m hv hm => exact .inl ⟨m, hv, hm⟩
  · rintro (⟨m, hv, hm⟩ | hf | ⟨hs, hlen⟩)
    · rw [unwrap_verified hw hv hm]
      refine ⟨by simp, ?_⟩
      simp only [PRE_EXT_FILE_NAME_LEN, MAX_FILE_NAME_LENGTH, ext, List.length_cons, List.length_nil] at hm ⊢
      omega
    · rw [unwrap_forged hw hf]
      exact ⟨by simp, by simp [ext, MAX_FILE_NAME_LENGTH]⟩
    · rw [unwrap_stub hw hs]
      exact ⟨by simp, Nat.not_lt.mpr hlen⟩

theorem header_iff (hw : Taken w) (buf : Bytes) (len : Nat) :
    ¬ ((w.unwrap E.na.aead E.server_rx STREAM_HEADERBYTES buf len).ret ≠ 0 ∧
      (w.unwrap E.na.aead E.server_rx STREAM_HEADERBYTES buf len).wrapper.corrupted = true) ↔
      (∃ m, Verified E.na.aead E.server_rx w m ∧ m.length ≤ STREAM_HEADERBYTES) ∨ Stub w := by
  have hu : Unwraps E.na.aead E.server_rx STREAM_HEADERBYTES buf len w _ := hw.unwraps _ buf len
  constructor
  · intro h
    generalize w.unwrap E.na.aead E.server_rx STREAM_HEADERBYTES buf len = u at hu h
    cases hu with
    | stub hs => exact .inr hs
    | long => exact absurd ⟨by simp, rfl⟩ h
    | forged => exact absurd ⟨by simp, rfl⟩ h
    | ok m hv hm => exact .inl ⟨m, hv, hm⟩
  · rintro (⟨m, hv, hm⟩ | hs)
    · rw [unwrap_verified hw hv hm]
      exact fun h => h.1 rfl
    · rw [unwrap_stub hw hs]
      intro h
      exact absurd (hw.whole.symm.trans h.2) (by decide)

end

section
variable {E : ServerEnv} {act : Nat} {st : FsOperator} {inp buf hbuf sbuf : Bytes} {e : Bool} {h : List (Ev Role)}
  {os : List (Option Nat)}

/-- Where a frame was read, and is not corrupted, it was there. -/
theorem ofSock_taken {r : Role} {w : SessionEncWrapper} {w1 : World FsOperator Role}
    (hx : Runs (ofSock r) ⟨st, inp, e, h, os⟩ w w1) (hc : w.corrupted = false) :
    ∃ rest evs, w1 = ⟨st, rest, e, h ++ evs, os⟩ ∧ takeFrame inp = some (w, rest) ∧ Taken w := by
  obtain ⟨rest, evs, hw, ht⟩ := ofSock_cases hx
  rcases ht with ht | ⟨-, -, hcor, -⟩
  · exact ⟨rest, evs, hw, ht, takeFrame_taken ht hc⟩
  · rw [hc] at hcor
    cases hcor

/-- `init_read` returns 0 on frames that pass. -/
theorem initRead_passes {x : Bytes × Bytes × Bytes} {w' : World FsOperator Role}
    (hx : Runs (E.initRead act buf hbuf sbuf) ⟨st, inp, e, h, os⟩ (.ok x) w') :
    ∃ f evs, fourFrames inp = some f ∧ Passes E (nameLen0 E st) f ∧ x = leftBy E (nameLen0 E st) buf hbuf sbuf f ∧
      w' = ⟨{ st with locals := st.locals + 1 }, f.rest, e, h ++ evs, os⟩ := by
  unfold ServerEnv.initRead at hx
  rw [runs_bind] at hx
  obtain ⟨w1, v1, h1, hx⟩ := hx
  simp only at hx
  split at hx
  · simp at hx
  rename_i hret1
  split at hx
  · simp at hx
  rename_i hset
  have hc1 : w1.corrupted = false := by
    by_contra hc
    exact hret1 (unwrap_corrupted _ _ (by simpa using hc) _ _ _)
  obtain ⟨r1, evs1, rfl, ht1, hw1⟩ := ofSock_taken h1 hc1
  rw [runs_bind] at hx
  obtain ⟨w2, v2, h2, hx⟩ := hx
  split at hx
  · simp at hx
  rename_i hc2
  obtain ⟨r2, evs2, rfl, ht2, hw2⟩ := ofSock_taken h2 (by simpa using hc2)
  rw [runs_bind] at hx
  obtain ⟨len0, v3, h3, hx⟩ := hx
  obtain ⟨rfl, rfl⟩ := (runs_modifyGet _ _ _ _).mp h3
  simp only at hx
  split at hx
  · simp at hx
  rename_i hname
  split at hx
  · simp at hx
  rename_i hlen
  rw [runs_bind] at hx
  obtain ⟨w3, v4, h4, hx⟩ := hx
  split at hx
  · simp at hx
  rename_i hc3
  obtain ⟨r3, evs3, rfl, ht3, hw3⟩ := ofSock_taken h4 (by simpa using hc3)
  split at hx
  · simp at hx
  rename_i hheader
  rw [runs_bind] at hx
  obtain ⟨w4, v5, h5, hx⟩ := hx
  split at hx
  · simp at hx
  rename_i hc4
  obtain ⟨r4, evs4, rfl, ht4, hw4⟩ := ofSock_taken h5 (by simpa using hc4)
  split at hx
  · simp at hx
  rename_i hsalt
  obtain ⟨hx, rfl⟩ := (runs_pure _ _ _ _).mp hx
  refine ⟨⟨w1, w2, w3, w4, r4⟩, evs1 ++ (evs2 ++ (evs3 ++ evs4)), fourFrames_eq ht1 ht2 ht3 ht4, ?_,
    by simpa [leftBy, nameLen0] using hx, by simp⟩
  exact ⟨⟨hw1, hw2, hw3, hw4⟩, (flag_iff hw1).mp ⟨by simpa using hret1, hset⟩, (name_iff hw2 _ _).mp ⟨hname, hlen⟩,
    (header_iff hw3 _ _).mp hheader, (unwrap_ret_zero_iff hw4 _ _ _).mp (by simpa using hsalt)⟩

/-- And on all of them. -/
theorem runs_initRead_passes (act : Nat) (buf hbuf sbuf : Bytes) {f : Frames} (hf : fourFrames inp = some f)
    (hp : Passes E (nameLen0 E st) f) (e : Bool) (h : List (Ev Role)) (os : List (Option Nat)) :
    ∃ w', Runs (E.initRead act buf hbuf sbuf) ⟨st, inp, e, h, os⟩
      (.ok (leftBy E (nameLen0 E st) buf hbuf sbuf f)) w' := by
  obtain ⟨r1, r2, r3, ht1, ht2, ht3, ht4⟩ := fourFrames_some hf
  obtain ⟨hw1, hw2, hw3, hw4⟩ := hp.whole
  obtain ⟨hret1, hset⟩ := (flag_iff hw1).mpr hp.flag
  obtain ⟨hname, hlen⟩ := (name_iff hw2 buf (nameLen0 E st)).mpr hp.name
  have hheader := (header_iff hw3 hbuf 0).mpr hp.header
  have hsalt := (unwrap_ret_zero_iff hw4 PWHASH_SALTBYTES sbuf 0).mpr hp.salt
  obtain ⟨evs1, h1⟩ := runs_ofSock_take st e h os ⟨act, .fileExists⟩ ht1
  obtain ⟨evs2, h2⟩ := runs_ofSock_take st e (h ++ evs1) os ⟨act, .fileName⟩ ht2
  obtain ⟨evs3, h3⟩ := runs_ofSock_take { st with locals := st.locals + 1 } e (h ++ evs1 ++ evs2) os ⟨act, .header⟩ ht3
  obtain ⟨evs4, h4⟩ := runs_ofSock_take { st with locals := st.locals + 1 } e (h ++ evs1 ++ evs2 ++ evs3)
    os ⟨act, .salt⟩ ht4
  refine ⟨⟨{ st with locals := st.locals + 1 }, f.rest, e, h ++ evs1 ++ evs2 ++ evs3 ++ evs4, os⟩, Runs.bind h1 ?_⟩
  simp only [hret1, ne_eq, not_true_eq_false, if_false, hset]
  refine Runs.bind h2 ?_
  simp only [hw2.whole, Bool.false_eq_true, if_false]
  refine Runs.modifyGet_bind ?_
  unfold nameLen0 at hname hlen
  simp only [hname, hlen, if_false]
  refine Runs.bind h3 ?_
  simp only [hw3.whole, Bool.false_eq_true, if_false]
  rw [if_neg hheader]
  refine Runs.bind h4 ?_
  simp only [hw4.whole, Bool.false_eq_true, if_false, hsalt, not_true_eq_false]
  exact (runs_pure _ _ _ _).mpr ⟨rfl, rfl⟩

end

/-! ## What an upload starts from -/

section
variable (E : ServerEnv)

/-- The frames verify, and the buffers hold their messages. -/
structure Authentic (f : Frames) (file_name_buf header salt : Bytes) : Prop where
  flag : ∃ m, Verified E.na.aead E.server_rx f.flag m
  name : ∃ m, Verified E.na.aead E.server_rx f.name m ∧ m ++ [0] <+: file_name_buf
  header : Verified E.na.aead E.server_rx f.header header ∧ header.length = STREAM_HEADERBYTES
  salt : Verified E.na.aead E.server_rx f.salt salt ∧ salt.length = PWHASH_SALTBYTES

/-- The name verifies, and header and salt do and have their lengths. -/
structure Proper (f : Frames) : Prop where
  name : ∃ m, Verified E.na.aead E.server_rx f.name m
  header : ∃ m, Verified E.na.aead E.server_rx f.header m ∧ m.length = STREAM_HEADERBYTES
  salt : ∃ m, Verified E.na.aead E.server_rx f.salt m ∧ m.length = PWHASH_SALTBYTES

end

section
variable {E : ServerEnv} {f : Frames} {len0 : Nat}

theorem Authentic.proper {nb hd sl : Bytes} (h : Authentic E f nb hd sl) : Proper E f := by
  obtain ⟨m, hm, -⟩ := h.name
  exact ⟨⟨m, hm⟩, ⟨hd, h.header⟩, ⟨sl, h.salt⟩⟩

theorem Proper.authentic (h : Proper E f) (hp : Passes E len0 f) (buf : Bytes) {hbuf sbuf : Bytes}
    (hh : hbuf.length = STREAM_HEADERBYTES) (hs : sbuf.length = PWHASH_SALTBYTES) :
    Authentic E f (leftBy E len0 buf hbuf sbuf f).1 (leftBy E len0 buf hbuf sbuf f).2.1
      (leftBy E len0 buf hbuf sbuf f).2.2 := by
  obtain ⟨-, hw2, hw3, hw4⟩ := hp.whole
  obtain ⟨b, -, hb⟩ := hp.flag
  obtain ⟨m2, hm2⟩ := h.name
  obtain ⟨m3, hm3, hl3⟩ := h.header
  obtain ⟨m4, hm4, hl4⟩ := h.salt
  have hle : m2.length ≤ PRE_EXT_FILE_NAME_LEN := by
    rcases hp.name with ⟨m, hm, hle⟩ | hf | ⟨hs, -⟩
    · rw [hm2.unique hm]
      exact hle
    · exact absurd (hf.rejected.symm.trans hm2) (by simp)
    · have hlen := hm2.length hw2
      unfold Stub at hs
      omega
  unfold leftBy
  rw [unwrap_verified hw2 hm2 hle, unwrap_verified hw3 hm3 (Nat.le_of_eq hl3),
    unwrap_verified hw4 hm4 (Nat.le_of_eq hl4)]
  have e3 : blit m3 hbuf = m3 := blit_eq_of_length (by omega)
  have e4 : blit m4 sbuf = m4 := blit_eq_of_length (by omega)
  simp only [e3, e4]
  refine ⟨⟨[b], hb⟩, ⟨m2, hm2, ?_⟩, ⟨hm3, hl3⟩, ⟨hm4, hl4⟩⟩
  simp [ServerEnv.terminate, blit]

end

/-- `init_read`, as the upload handler calls it, returns 0. -/
def InitReads (E : ServerEnv) (act : Nat) (w : World FsOperator Role) (x : Bytes × Bytes × Bytes) : Prop :=
  ∃ w', Runs (E.initRead act (E.host.stack w.st.locals) (fit STREAM_HEADERBYTES (E.host.stack (w.st.locals + 1)))
    (fit PWHASH_SALTBYTES (E.host.stack (w.st.locals + 2))))
    { w with st := { w.st with locals := w.st.locals + 3 } } (.ok x) w'

/-- Every moment of the upload handler: no file was opened yet, or `init_read`
returned 0 and the file is the one it names. -/
theorem wtfs_opens {E : ServerEnv} {act n : Nat} {w w' : World FsOperator Role} {o : List (Role × Bytes)}
    {q : Server Int} (hg : Goes n (E.wtfsHandlerServer act) w o q w') :
    (w'.st.names = w.st.names ∧ w'.st.fs = w.st.fs) ∨
    ∃ nb hd sl, InitReads E act w (nb, hd, sl) ∧ w'.st.names = w.st.names ++ [cstr nb ++ ext] := by
  let K : FsOperator → Prop := fun s =>
    (s.names = w.st.names ∧ s.fs = w.st.fs) ∨
    ∃ nb hd sl, InitReads E act w (nb, hd, sl) ∧ s.names = w.st.names ++ [cstr nb ++ ext]
  have hstart : ∀ s, s.names = w.st.names ∧ s.fs = w.st.fs → K s := fun s h => .inl h
  -- behind the opening the names stay
  have hnames : ServerEnv.Parts (fun {_} (p : Server _) => Keeps (fun s t => t.names = s.names) p) :=
    { toClosed := closed_keeps (fun _ => rfl) fun h1 h2 => h2.trans h1
      frame := fun _ hf => keeps_modifyGet (R := fun s t : FsOperator => t.names = s.names) (fun _ => rfl)
        fun s => (hf s).2.2 }
  have hfiles : ServerEnv.Parts (fun {_} (p : Server _) => Keeps (fun s t => t.names = s.names ∧ t.fs = s.fs) p) :=
    { toClosed := closed_keeps (fun _ => ⟨rfl, rfl⟩) fun h1 h2 => ⟨h2.1.trans h1.1, h2.2.trans h1.2⟩
      frame := fun _ hf => keeps_modifyGet (fun _ => ⟨rfl, rfl⟩) fun s => ⟨(hf s).2.2, (hf s).1⟩ }
  have hwritten : ∀ b, Keeps (fun s t => t.names = s.names) (ServerEnv.writeOut b) := by
    intro b
    refine keeps_modifyGet (R := fun s t : FsOperator => t.names = s.names) (fun _ => rfl) fun s => ?_
    simp only [ServerEnv.written]
    split <;> rfl
  have hall : Always (OnState fun _ => K) (E.wtfsHandlerServer act) (fun _ _ _ => True) [] w := by
    refine Always.bind (Always.act (hstart _ ⟨rfl, rfl⟩) (hstart _ ⟨rfl, rfl⟩) ?_)
    refine Always.bind (Always.act (hstart _ ⟨rfl, rfl⟩) (hstart _ ⟨rfl, rfl⟩) ?_)
    refine Always.bind (Always.act (hstart _ ⟨rfl, rfl⟩) (hstart _ ⟨rfl, rfl⟩) ?_)
    refine Always.bind (Always.mono ((hfiles.initRead act _ _ _).always fun o' w' h => hstart _ h) ?_)
    rintro x o1 w1 - ⟨hst, hr⟩
    cases x with
    | error c => exact Always.pure (hstart _ hst) trivial
    | ok x =>
      obtain ⟨nb, hd, sl⟩ := x
      have hopened : ∀ s, (E.opened (cstr nb ++ ext) s).names = s.names ++ [cstr nb ++ ext] := by
        intro s
        unfold ServerEnv.opened
        split <;> rfl
      have hnew : ∀ s, s.names = w.st.names ++ [cstr nb ++ ext] → K s :=
        fun s h => .inr ⟨nb, hd, sl, ⟨w1, hr⟩, h⟩
      have h1 := (hopened w1.st).trans (congrArg (· ++ [cstr nb ++ ext]) hst.1)
      refine Always.bind (Always.modify (hstart _ hst) (hnew _ h1) ?_)
      refine Always.mono (Keeps.always (R := fun s t => t.names = s.names) ?_ fun o' w' h => hnew _ (h.trans h1))
        fun _ _ _ _ _ => trivial
      refine hnames.bind (hwritten hd) fun _ => ?_
      refine hnames.bind (hwritten sl) fun _ => ?_
      refine hnames.bind (Keeps.loop (R := fun s t : FsOperator => t.names = s.names) (fun _ => rfl)
        (fun h1 h2 => h2.trans h1) (hnames.wtfsRound act) _) fun y => ?_
      exact hnames.bind (hwritten _) fun _ => hnames.pure _
  exact (hall n o q w' hg).1

/-- `init_read` returns 0, and the handler opens a file, only on four frames that
verify and with their messages in the buffers. -/
def StartsAuthentic (E : ServerEnv) (act : Nat) (st : FsOperator) (inp : Bytes) (e : Bool) (h : List (Ev Role))
    (os : List (Option Nat)) : Prop :=
  (∀ nb hd sl, InitReads E act ⟨st, inp, e, h, os⟩ (nb, hd, sl) →
    ∃ f, fourFrames inp = some f ∧ Authentic E f nb hd sl) ∧
  ∀ n o q w', Goes n (E.wtfsHandlerServer act) ⟨st, inp, e, h, os⟩ o q w' → w'.st.names ≠ st.names →
    ∃ f nb hd sl, fourFrames inp = some f ∧ Authentic E f nb hd sl ∧ w'.st.names = st.names ++ [cstr nb ++ ext]

/-- An upload starts from what was sent exactly when the frames that pass are
proper: the name verifies, and the header and the salt, at their full lengths. -/
theorem upload_starts_authentic_iff (E : ServerEnv) (act : Nat) (st : FsOperator) (inp : Bytes) (e : Bool)
    (h : List (Ev Role)) (os : List (Option Nat)) :
    StartsAuthentic E act st inp e h os ↔ ∀ f, fourFrames inp = some f →
      Passes E (nameLen0 E { st with locals := st.locals + 3 }) f → Proper E f := by
  constructor
  · rintro ⟨hinit, -⟩ f hf hp
    obtain ⟨w', hr⟩ := runs_initRead_passes act (E.host.stack st.locals)
      (fit STREAM_HEADERBYTES (E.host.stack (st.locals + 1))) (fit PWHASH_SALTBYTES (E.host.stack (st.locals + 2)))
      hf hp e h os
    obtain ⟨f', hf', ha⟩ := hinit _ _ _ ⟨w', hr⟩
    obtain rfl := Option.some.inj (hf.symm.trans hf')
    exact ha.proper
  · intro hall
    have hinit : ∀ nb hd sl, InitReads E act ⟨st, inp, e, h, os⟩ (nb, hd, sl) →
        ∃ f, fourFrames inp = some f ∧ Authentic E f nb hd sl := by
      rintro nb hd sl ⟨w', hr⟩
      obtain ⟨f, evs, hf, hp, hx, -⟩ := initRead_passes hr
      have ha := (hall f hf hp).authentic hp (E.host.stack st.locals)
        (fit_length STREAM_HEADERBYTES (E.host.stack (st.locals + 1)))
        (fit_length PWHASH_SALTBYTES (E.host.stack (st.locals + 2)))
      rw [← hx] at ha
      exact ⟨f, hf, ha⟩
    refine ⟨hinit, fun n o q w' hg hnames => ?_⟩
    rcases wtfs_opens hg with ⟨hsame, -⟩ | ⟨nb, hd, sl, hi, hn⟩
    · exact absurd hsame hnames
    · obtain ⟨f, hf, ha⟩ := hinit nb hd sl hi
      exact ⟨f, nb, hd, sl, hf, ha, hn⟩

/-- A name nobody encrypted: sixteen zero bytes for a tag. -/
def forgedName : Bytes := u64Enc 16 ++ List.replicate 8 0 ++ List.replicate 16 0

/-- An upload of Alice's with that in place of the name. -/
def forgedStart : Bytes :=
  let A := aliceServer.na.aead
  let rx := aliceServer.server_rx
  frame A rx (u64Enc 1) [1] ++ (forgedName ++ (frame A rx (u64Enc 3) (List.replicate STREAM_HEADERBYTES 7) ++
    frame A rx (u64Enc 4) (List.replicate PWHASH_SALTBYTES 7)))

theorem forged_name_starts : ¬ StartsAuthentic aliceServer 0 aliceDir forgedStart true [] [] := by
  have hrun : (exec 1 (aliceServer.initRead 0 [] (fit STREAM_HEADERBYTES []) (fit PWHASH_SALTBYTES []))
      ⟨{ aliceDir with locals := 3 }, forgedStart, true, [], []⟩).map (fun y => y.1.toOption.isSome) = some true := by
    decide +kernel
  have hname : (fourFrames forgedStart).map (fun f =>
      aliceServer.na.aead.decrypt aliceServer.server_rx f.name.nonce f.name.session_encrypted_data) = some none := by
    decide +kernel
  intro h
  obtain ⟨⟨x, w'⟩, hx, hok⟩ := Option.map_eq_some_iff.mp hrun
  cases x with
  | error c => cases hok
  | ok x =>
    obtain ⟨nb, hd, sl⟩ := x
    obtain ⟨f, hf, ha⟩ := h.1 nb hd sl ⟨w', 1, hx⟩
    obtain ⟨m, hm, -⟩ := ha.name
    rw [hf] at hname
    exact absurd ((Option.some.inj hname).symm.trans hm) (by simp)

/-! ## Uploads that stop -/

section
variable (E : ServerEnv)

/-- One round of the chunk loop on the bytes: the prefix, the chunk and what is
behind it; `none`: there is no such chunk. -/
def takeChunk (prefix_ : Int) (inp : Bytes) : Option (Int × Bytes × Bytes) :=
  match takeFrame inp with
  | none => none
  | some (w, r) =>
    if w.corrupted then none
    else
      let u := w.unwrap E.na.aead E.server_rx 4 (i32Enc prefix_) 0
      if u.ret ≠ 0 then none
      else (takeBlob FILE_ENCRYPTED_CHUNK_SIZE r).map fun x => (i32Dec u.decrypted_data, x)

/-- The chunks the loop takes off a stream, and whether the last one was
announced with `END_CHUNK`. -/
inductive Receives : Int → Bytes → List Bytes → Bool → Prop where
  | cut {p : Int} {inp : Bytes} (h : takeChunk E p inp = none) : Receives p inp [] false
  | last {p : Int} {inp b r : Bytes} (h : takeChunk E p inp = some (END_CHUNK, b, r)) : Receives p inp [b] true
  | other {p v : Int} {inp b r : Bytes} (h : takeChunk E p inp = some (v, b, r)) (he : v ≠ END_CHUNK)
      (hm : v ≠ MEAT_CHUNK) : Receives p inp [b] false
  | more {p : Int} {inp b r : Bytes} {bs : List Bytes} {c : Bool} (h : takeChunk E p inp = some (MEAT_CHUNK, b, r))
      (t : Receives MEAT_CHUNK r bs c) : Receives p inp (b :: bs) c

end

section
variable {E : ServerEnv} {act : Nat} {st : FsOperator} {inp : Bytes} {e : Bool} {h : List (Ev Role)}
  {os : List (Option Nat)}

theorem Receives.unique {p : Int} {bs bs' : List Bytes} {c c' : Bool} (h : Receives E p inp bs c)
    (h' : Receives E p inp bs' c') : bs = bs' ∧ c = c' := by
  induction h generalizing bs' c' with
  | cut h =>
    cases h' with
    | cut => exact ⟨rfl, rfl⟩
    | last h' => simp [h] at h'
    | other h' => simp [h] at h'
    | more h' => simp [h] at h'
  | last h =>
    cases h' with
    | cut h' => simp [h] at h'
    | last h' =>
      simp only [h, Option.some.injEq, Prod.mk.injEq, true_and] at h'
      exact ⟨by rw [h'.1], rfl⟩
    | other h' he =>
      simp only [h, Option.some.injEq, Prod.mk.injEq] at h'
      exact absurd h'.1.symm he
    | more h' => simp [h, END_CHUNK, MEAT_CHUNK] at h'
  | other h he hm =>
    cases h' with
    | cut h' => simp [h] at h'
    | last h' =>
      simp only [h, Option.some.injEq, Prod.mk.injEq] at h'
      exact absurd h'.1 he
    | other h' =>
      simp only [h, Option.some.injEq, Prod.mk.injEq] at h'
      exact ⟨by rw [h'.2.1], rfl⟩
    | more h' =>
      simp only [h, Option.some.injEq, Prod.mk.injEq] at h'
      exact absurd h'.1 hm
  | more h t ih =>
    cases h' with
    | cut h' => simp [h] at h'
    | last h' => simp [h, END_CHUNK, MEAT_CHUNK] at h'
    | other h' _ hm =>
      simp only [h, Option.some.injEq, Prod.mk.injEq] at h'
      exact absurd h'.1.symm hm
    | more h' t' =>
      simp only [h, Option.some.injEq, Prod.mk.injEq, true_and] at h'
      obtain ⟨rfl, rfl⟩ := h'
      obtain ⟨rfl, rfl⟩ := ih t'
      exact ⟨rfl, rfl⟩

/-- A round of the loop does what `takeChunk` says. -/
theorem wtfsRound_takes {j : Nat} {p : Int} {pub : List Bytes} {x : ServerEnv.Receiving ⊕ Int × List Bytes}
    {w' : World FsOperator Role} (hx : Runs (E.wtfsRound act (j, p, pub)) ⟨st, inp, e, h, os⟩ x w') :
    (takeChunk E p inp = none ∧ ∃ r, x = .inr (r, pub)) ∨
    ∃ v b rest evs, takeChunk E p inp = some (v, b, rest) ∧ w' = ⟨st, rest, e, h ++ evs, os⟩ ∧
      x = if v = END_CHUNK then .inr (0, pub ++ [b])
        else if v = MEAT_CHUNK then .inl (j + 1, v, pub ++ [b]) else .inr (0, pub ++ [b]) := by
  unfold ServerEnv.wtfsRound at hx
  simp only at hx
  rw [runs_bind] at hx
  obtain ⟨w, v1, h1, hx⟩ := hx
  obtain ⟨r1, evs1, rfl, ht⟩ := ofSock_cases h1
  cases hc : w.corrupted with
  | true =>
    simp only [hc, if_true] at hx
    obtain ⟨rfl, -⟩ := (runs_pure _ _ _ _).mp hx
    refine .inl ⟨?_, 0, rfl⟩
    rcases ht with ht | ⟨ht, -⟩
    · simp [takeChunk, ht, hc]
    · simp [takeChunk, ht]
  | false =>
    rcases ht with ht | ⟨-, -, hcor, -⟩
    · simp only [hc, Bool.false_eq_true, if_false] at hx
      by_cases hu : (w.unwrap E.na.aead E.server_rx 4 (i32Enc p) 0).ret = 0
      · simp only [hu, ne_eq, not_true_eq_false, if_false] at hx
        rw [runs_bind] at hx
        obtain ⟨o, v2, h2, hx⟩ := hx
        obtain ⟨r2, evs2, rfl, hb⟩ := recvRawBlob_cases h2
        rcases hb with ⟨rfl, hb⟩ | ⟨b, rfl, hb⟩
        · obtain ⟨rfl, -⟩ := (runs_pure _ _ _ _).mp hx
          exact .inl ⟨by simp [takeChunk, ht, hc, hu, hb], 1, rfl⟩
        · refine .inr ⟨_, b, r2, evs1 ++ evs2, by simp [takeChunk, ht, hc, hu, hb]; rfl, ?_⟩
          simp only at hx
          split at hx
          · rename_i hend
            obtain ⟨rfl, rfl⟩ := (runs_pure _ _ _ _).mp hx
            exact ⟨by rw [List.append_assoc], by rw [if_pos hend]⟩
          · rename_i hend
            obtain ⟨hif, rfl⟩ := (runs_ite_pure _ _ _ _ _ _).mp hx
            exact ⟨by rw [List.append_assoc], by rw [if_neg hend]; exact hif⟩
      · simp only [hu, ne_eq, not_false_eq_true, if_true] at hx
        obtain ⟨rfl, -⟩ := (runs_pure _ _ _ _).mp hx
        exact .inl ⟨by simp [takeChunk, ht, hc, hu], 0, rfl⟩
    · rw [hc] at hcor
      cases hcor

/-- What the loop publishes are the chunks it receives. -/
theorem wtfsLoop_receives {j : Nat} {p : Int} {pub : List Bytes} {x : Int × List Bytes}
    {w' : World FsOperator Role} (hx : Runs (loop (E.wtfsRound act) (j, p, pub)) ⟨st, inp, e, h, os⟩ x w') :
    ∃ bs c, Receives E p inp bs c ∧ x.2 = pub ++ bs := by
  -- along the rounds the world keeps its shape
  refine Runs.loop_rec (P := fun g w x _ => ∀ st inp h, w = ⟨st, inp, e, h, os⟩ →
    ∃ bs c, Receives E g.2.1 inp bs c ∧ x.2 = g.2.2 ++ bs) ?_ ?_ hx st inp h rfl
  · rintro ⟨j, p, pub⟩ w x w' hr st inp h rfl
    rcases wtfsRound_takes hr with ⟨hn, r, hx⟩ | ⟨v, b, rest, evs, ht, -, hx⟩
    · obtain rfl := Sum.inr.inj hx
      exact ⟨[], false, .cut hn, by simp⟩
    · by_cases he : v = END_CHUNK
      · rw [if_pos he] at hx
        obtain rfl := Sum.inr.inj hx
        subst he
        exact ⟨[b], true, .last ht, rfl⟩
      · rw [if_neg he] at hx
        by_cases hm : v = MEAT_CHUNK
        · rw [if_pos hm] at hx
          cases hx
        · rw [if_neg hm] at hx
          obtain rfl := Sum.inr.inj hx
          exact ⟨[b], false, .other ht he hm, rfl⟩
  · rintro ⟨j, p, pub⟩ w g' w1 x w' hr ih st inp h rfl
    rcases wtfsRound_takes hr with ⟨-, r, hx⟩ | ⟨v, b, rest, evs, ht, hw, hx⟩
    · cases hx
    · by_cases he : v = END_CHUNK
      · rw [if_pos he] at hx
        cases hx
      · rw [if_neg he] at hx
        by_cases hm : v = MEAT_CHUNK
        · rw [if_pos hm] at hx
          obtain rfl := Sum.inl.inj hx
          subst hm
          obtain ⟨bs, c, hbs, hx⟩ := ih st rest (h ++ evs) hw
          exact ⟨b :: bs, c, .more ht hbs, by simpa using hx⟩
        · rw [if_neg hm] at hx
          cases hx

variable (E st inp) in
/-- The upload got to its end: the chunk announced with `END_CHUNK` was received. -/
def Completed : Prop :=
  ∃ f bs, fourFrames inp = some f ∧ Passes E (nameLen0 E { st with locals := st.locals + 3 }) f ∧
    Receives E END_CHUNK f.rest bs true

variable (E st) in
/-- The name, header and salt of an upload, as the handler holds them. -/
def uploadStart (f : Frames) : Bytes × Bytes × Bytes :=
  leftBy E (nameLen0 E { st with locals := st.locals + 3 }) (E.host.stack st.locals)
    (fit STREAM_HEADERBYTES (E.host.stack (st.locals + 1))) (fit PWHASH_SALTBYTES (E.host.stack (st.locals + 2))) f

/-- The upload handler on the bytes. -/
theorem wtfs_takes {r : Int} {w' : World FsOperator Role}
    (hx : Runs (E.wtfsHandlerServer act) ⟨st, inp, e, h, os⟩ r w') :
    ((∀ f, fourFrames inp = some f → ¬ Passes E (nameLen0 E { st with locals := st.locals + 3 }) f) ∧
      w'.st.fs = st.fs) ∨
    ∃ f bs c, fourFrames inp = some f ∧ Passes E (nameLen0 E { st with locals := st.locals + 3 }) f ∧
      Receives E END_CHUNK f.rest bs c ∧
      w'.st.fs = st.fs.stored E.cwd (E.user_dir ++ (cstr (uploadStart E st f).1 ++ ext))
        ((uploadStart E st f).2.1 ++ (uploadStart E st f).2.2 ++ bs.flatten) := by
  rw [← wtfsHandlerServerOn_sound] at hx
  obtain ⟨x, w1, hi, hx⟩ := wtfsOn_cases hx
  cases x with
  | error c =>
    refine .inl ⟨fun f hf hp => ?_, hx.2⟩
    obtain ⟨w2, hok⟩ := runs_initRead_passes act (E.host.stack st.locals)
      (fit STREAM_HEADERBYTES (E.host.stack (st.locals + 1))) (fit PWHASH_SALTBYTES (E.host.stack (st.locals + 2)))
      hf hp e h os
    exact absurd (hi.unique hok).1 (by simp)
  | ok x =>
    obtain ⟨st2, pub, w2, hl, hfs⟩ := hx
    obtain ⟨f, evs, hf, hp, rfl, rfl⟩ := initRead_passes hi
    obtain ⟨bs, c, hbs, hpub⟩ := wtfsLoop_receives hl
    rw [List.nil_append] at hpub
    refine .inr ⟨f, bs, c, hf, hp, hbs, ?_⟩
    rw [← hpub]
    exact hfs

end

/-- An upload that stops before its end leaves every file as it was. -/
def FailedUploadHarmless (E : ServerEnv) (act : Nat) (st : FsOperator) (inp : Bytes) (h : List (Ev Role))
    (os : List (Option Nat)) : Prop :=
  ∀ e r w', Runs (E.wtfsHandlerServer act) ⟨st, inp, e, h, os⟩ r w' → ¬ Completed E st inp →
    ∀ p, w'.st.fs.lookup p = st.fs.lookup p

/-- It does so exactly when it does not get past `init_read`, its file does not
open, or what it wrote is what the file held before. -/
theorem failed_upload_harmless_iff (E : ServerEnv) (act : Nat) (st : FsOperator) (inp : Bytes) (h : List (Ev Role))
    (os : List (Option Nat)) : FailedUploadHarmless E act st inp h os ↔ ∀ f bs, fourFrames inp = some f →
      Passes E (nameLen0 E { st with locals := st.locals + 3 }) f → Receives E END_CHUNK f.rest bs false →
      st.fs.openTrunc E.cwd (E.user_dir ++ (cstr (uploadStart E st f).1 ++ ext)) = none ∨
      st.fs.openRead E.cwd (E.user_dir ++ (cstr (uploadStart E st f).1 ++ ext)) =
        some ⟨(uploadStart E st f).2.1 ++ (uploadStart E st f).2.2 ++ bs.flatten, false⟩ := by
  constructor
  · intro hall f bs hf hp hbs
    have hhalts : Halts (E.wtfsHandlerServer act) ⟨st, inp, true, h, os⟩ := halts_wtfsHandlerServer rfl
    obtain ⟨r, w', hr⟩ := hhalts
    have hstop : ¬ Completed E st inp := by
      rintro ⟨f', bs', hf', -, hbs'⟩
      obtain rfl := Option.some.inj (hf.symm.trans hf')
      exact absurd (hbs.unique hbs').2 (by simp)
    have hsame := hall true r w' hr hstop
    rcases wtfs_takes hr with ⟨hno, -⟩ | ⟨f', bs', c, hf', -, hbs', hfs⟩
    · exact absurd hp (hno f hf)
    · obtain rfl := Option.some.inj (hf.symm.trans hf')
      obtain ⟨rfl, -⟩ := hbs.unique hbs'
      rw [hfs] at hsame
      exact FS.stored_same_iff.mp hsame
  · intro hall e r w' hr hstop
    rcases wtfs_takes hr with ⟨-, hfs⟩ | ⟨f, bs, c, hf, hp, hbs, hfs⟩
    · rw [hfs]
      exact fun p => rfl
    · cases c with
      | true => exact absurd ⟨f, bs, hf, hp, hbs⟩ hstop
      | false =>
        rw [hfs]
        exact FS.stored_same_iff.mpr (hall f bs hf hp hbs)

/-- Alice's directory with an earlier version of `"a"`. -/
def aliceOld : FsOperator :=
  { aliceDir with fs := aliceDir.fs.insert [mefS, alice, [97] ++ ext] (.file [9]) }

/-- Her next upload of it breaks off behind the salt. -/
theorem cut_upload_overwrites : ¬ FailedUploadHarmless aliceServer 0 aliceOld aliceStart [] [] := by
  have hrun : (exec 2 (aliceServer.wtfsHandlerServer 0) ⟨aliceOld, aliceStart, true, [], []⟩).map
      (fun y => decide (y.2.st.fs.lookup [mefS, alice, [97] ++ ext] = some (.file [9]))) = some false := by
    decide +kernel
  have hrest : (fourFrames aliceStart).map (fun f => takeChunk aliceServer END_CHUNK f.rest) = some none := by
    decide +kernel
  intro h
  obtain ⟨⟨r, w'⟩, hx, hne⟩ := Option.map_eq_some_iff.mp hrun
  refine absurd (h true r w' ⟨2, hx⟩ ?_ _) (of_decide_eq_false hne)
  rintro ⟨f, bs, hf, -, hbs⟩
  rw [hf] at hrest
  have hnone := Option.some.inj hrest
  cases hbs with
  | last h => exact absurd (hnone.symm.trans h) (by simp)
  | more h => exact absurd (hnone.symm.trans h) (by simp)

end Mefsc.L4
