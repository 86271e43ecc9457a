import Mefsc.L3Protocol.ServerParts
import Mefsc.L4App.RoundTrip

/-!
# Uploads that are reported

An upload has no answer. The client returns 0 whenever it could read its file,
whatever became of its sends; the server returns 0 also when the loop ends at a
prefix frame it could not read, and never asks the stream it writes to.

`Disk`: what the server's disk does for one upload. `Attempt`: an upload with
everything that can go wrong with it, the sends of the client, the bytes that
get to the server and the disk. `reported_upload_stored`: an attempt that
is reported is stored when nothing goes wrong; and if the bytes that arrive are
the client's as far as they go, only then.
-/
namespace Mefsc.L4

open L1 L1.SessionEncWrapper L2 L3
open Proc hiding ret recv send act iter bind

/-! ## A disk that fails -/

/-- Whether the file opens, and how many bytes fit (`none`: all of them). A
write that does not fit leaves what did and sets `badbit`; the stream takes
nothing more. -/
structure Disk where
  opens : Bool
  room : Option Nat

namespace Disk

def sound : Disk := ⟨true, none⟩

/-- The part of `b` that fits behind `old`. -/
def takes (D : Disk) (old b : Bytes) : Bytes :=
  match D.room with
  | none => b
  | some k => b.take (k - old.length)

/-- `b` fits. -/
def Fits (D : Disk) (b : Bytes) : Prop := ∀ k, D.room = some k → b.length ≤ k

variable {D : Disk}

/-- Two writes are one. -/
theorem takes_append (D : Disk) (a b : Bytes) :
    D.takes [] (a ++ b) = D.takes [] a ++ D.takes (D.takes [] a) b := by
  unfold takes
  split
  · rfl
  · rename_i k _
    have hk : k - (a.take (k - ([] : Bytes).length)).length = k - a.length := by
      simp only [List.length_take, List.length_nil]
      omega
    rw [hk, List.take_append]
    simp

theorem takes_begins (D : Disk) (old b : Bytes) : D.takes old b <+: b := by
  unfold takes
  split
  · exact List.prefix_refl b
  · exact List.take_prefix _ b

theorem takes_of_fits {b : Bytes} (h : D.Fits b) : D.takes [] b = b := by
  unfold takes
  split
  · rfl
  · rename_i k hk
    exact List.take_of_length_le (h k hk)

theorem fits_of_takes {b : Bytes} (h : b.length ≤ (D.takes [] b).length) : D.Fits b := by
  intro k hk
  simp only [takes, hk, List.length_take, List.length_nil] at h
  omega

/-- Open with truncation, write `b`, close. -/
def stored (D : Disk) (fs : FS) (cwd : Path) (s b : Bytes) : FS :=
  if D.opens then fs.stored cwd s (D.takes [] b) else fs

end Disk

section
variable (E : ServerEnv) (D : Disk)

/-- The state behind `std::ofstream file(user_dir + name)`. -/
def openedOn (name : Bytes) (s : FsOperator) : FsOperator :=
  if D.opens then E.opened name s else { s with file := none, names := s.names ++ [name] }

/-- The state behind `file.write`. -/
def writtenOn (b : Bytes) (s : FsOperator) : FsOperator :=
  match s.file with
  | none => s
  | some p =>
    match s.fs.lookup p with
    | some (.file old) => { s with fs := s.fs.append p (D.takes old b) }
    | _ => s

/-- mirrors src/server/read_write_handlers.cpp:127-214 -/
def wtfsHandlerServerOn (act : Nat) : Server Int := do
  let file_name_buf ← E.uninit
  let header ← E.uninit
  let salt ← E.uninit
  match ← E.initRead act file_name_buf (fit STREAM_HEADERBYTES header) (fit PWHASH_SALTBYTES salt) with
  | .error _ => return 1
  | .ok (file_name_buf, header, salt) =>
    modify (openedOn E D (cstr file_name_buf ++ ext))
    modify (writtenOn D header)
    modify (writtenOn D salt)
    let (status, published) ← loop (E.wtfsRound act) (0, END_CHUNK, [])
    modify (writtenOn D (writerOutput published))
    return status

theorem writtenOn_sound (b : Bytes) : writtenOn .sound b = ServerEnv.written b := by
  funext s
  obtain ⟨fs, nonce, file, draws, locals, names⟩ := s
  unfold writtenOn ServerEnv.written
  cases file with
  | none => rfl
  | some p =>
    simp only [FS.append, Disk.takes, Disk.sound]
    cases fs.lookup p with
    | none => rfl
    | some x => cases x <;> rfl

/-- On a disk that does not fail it is the handler. -/
theorem wtfsHandlerServerOn_sound (act : Nat) : wtfsHandlerServerOn E .sound act = E.wtfsHandlerServer act := by
  have ho : openedOn E .sound = E.opened := rfl
  unfold wtfsHandlerServerOn ServerEnv.wtfsHandlerServer
  simp only [writtenOn_sound, ho]
  rfl

variable {E D}

theorem writtenOn_writtenOn (a b : Bytes) (name : Bytes) (s : FsOperator) :
    writtenOn D b (writtenOn D a (openedOn E D name s)) = writtenOn D (a ++ b) (openedOn E D name s) := by
  unfold openedOn
  split
  · unfold ServerEnv.opened
    split
    · rfl
    · rename_i ho
      rw [FS.openTrunc_eq ho]
      simp [writtenOn, FS.append_insert, Disk.takes_append]
  · rfl

/-- What the writes of an upload leave behind. -/
theorem writtenOn_fs (b name : Bytes) (s : FsOperator) :
    (writtenOn D b (openedOn E D name s)).fs = D.stored s.fs E.cwd (E.user_dir ++ name) b := by
  unfold openedOn Disk.stored
  split
  · unfold ServerEnv.opened FS.stored
    cases ho : s.fs.openTrunc E.cwd (E.user_dir ++ name) with
    | none => rfl
    | some x =>
      obtain ⟨p, fs⟩ := x
      obtain rfl := FS.openTrunc_eq ho
      simp [writtenOn, FS.append_insert]
  · rfl

end

/-! ## The server on a stream that may end early -/

section
variable {E : ServerEnv} {D : Disk} {act : Nat} {st : FsOperator} {inp t : Bytes} {e : Bool} {h : List (Ev Role)}

/-- `init_read` gets through only if all four frames are there. -/
theorem initRead_cut {nonce name header salt buf hbuf sbuf : Bytes} (h64 : name.length + AEAD_ABYTES < 2 ^ 64)
    (hh : header.length = STREAM_HEADERBYTES) (hs : salt.length = PWHASH_SALTBYTES)
    (hp : inp <+: sent (initEvs E.na.aead E.server_rx act nonce name header salt) ++ t)
    {x : Bytes × Bytes × Bytes} {w' : World FsOperator Role}
    (hx : Runs (E.initRead act buf hbuf sbuf) ⟨st, inp, e, h, []⟩ (.ok x) w') :
    name.length ≤ PRE_EXT_FILE_NAME_LEN ∧
      ∃ t', inp = sent (initEvs E.na.aead E.server_rx act nonce name header salt) ++ t' ∧ t' <+: t := by
  simp only [initEvs, sent, List.append_assoc, List.append_nil] at hp ⊢
  unfold ServerEnv.initRead at hx
  rw [runs_bind] at hx
  obtain ⟨confirm_wrap, w1, h1, hx⟩ := hx
  rcases ofSock_cut (by simp) (by decide) hp h1 with hc | ⟨-, t1, rfl, hp1, rfl, rfl⟩
  · have hret := unwrap_corrupted E.na.aead E.server_rx hc 1 [0] 0
    simp [hret] at hx
  rw [unwrap_received _ _ _ (by decide) (by decide)] at hx
  simp only [ne_eq, not_true_eq_false, if_false, blit, List.singleton_append, List.take_succ_cons,
    List.cons.injEq, List.take_zero, and_true, show ¬ (1 : UInt8) = 0 by decide] at hx
  rw [runs_bind] at hx
  obtain ⟨file_name_wrap, w2, h2, hx⟩ := hx
  rcases ofSock_cut (by simp) h64 hp1 h2 with hc | ⟨hfile, t2, rfl, hp2, rfl, rfl⟩
  · simp [hc] at hx
  simp only [received_corrupted, Bool.false_eq_true, if_false] at hx
  rw [runs_bind] at hx
  obtain ⟨len0, w3, h3, hx⟩ := hx
  obtain ⟨-, rfl⟩ := (runs_modifyGet _ _ _ _).mp h3
  by_cases hname : name.length ≤ PRE_EXT_FILE_NAME_LEN
  · rw [unwrap_received _ _ _ hfile hname] at hx
    simp only [show ¬ (0 : Int) = 2 by decide, if_false] at hx
    split at hx
    · simp at hx
    rw [runs_bind] at hx
    obtain ⟨header_wrap, w4, h4, hx⟩ := hx
    rcases ofSock_cut (by simp) (by rw [hh]; decide) hp2 h4 with hc | ⟨-, t3, rfl, hp3, rfl, rfl⟩
    · simp [hc] at hx
    simp only [received_corrupted, Bool.false_eq_true, if_false] at hx
    split at hx
    · simp at hx
    rw [runs_bind] at hx
    obtain ⟨salt_wrap, w5, h5, hx⟩ := hx
    rcases ofSock_cut (by simp) (by rw [hs]; decide) hp3 h5 with hc | ⟨-, t4, rfl, hp4, -, -⟩
    · simp [hc] at hx
    exact ⟨hname, t4, rfl, hp4⟩
  · rw [unwrap_received_too_long _ _ _ hfile (Nat.lt_of_not_le hname)] at hx
    simp at hx

/-- The loop publishes the chunks that are there; all of them only if the
stream has them all. -/
theorem wtfsLoop_cut {bs : List Bytes} (hb : ∀ b ∈ bs, b.length ≤ FILE_ENCRYPTED_CHUNK_SIZE) {nonce : Bytes}
    {j : Nat} {p : Int} {pub : List Bytes}
    (hp : inp <+: sent (chunkEvs E.na.aead E.server_rx act nonce j (marked bs)) ++ t) (hne : bs ≠ [])
    {x : Int × List Bytes} {w' : World FsOperator Role}
    (hx : Runs (loop (E.wtfsRound act) (j, p, pub)) ⟨st, inp, e, h, []⟩ x w') :
    ∃ cs, x.2 = pub ++ cs ∧ cs <+: bs ∧
      (cs = bs → sent (chunkEvs E.na.aead E.server_rx act nonce j (marked bs)) <+: inp) := by
  induction bs generalizing nonce j p pub inp h with
  | nil => exact absurd rfl hne
  | cons b bs ih =>
    have hb0 := hb b List.mem_cons_self
    obtain ⟨v, ms, hms, hv⟩ : ∃ v ms, marked (b :: bs) = (v, b) :: ms ∧
        (v = END_CHUNK ∧ bs = [] ∧ ms = [] ∨ v = MEAT_CHUNK ∧ bs ≠ [] ∧ ms = marked bs) := by
      cases bs with
      | nil => exact ⟨_, _, rfl, .inl ⟨rfl, rfl, rfl⟩⟩
      | cons b' bs => exact ⟨_, _, rfl, .inr ⟨rfl, by simp, rfl⟩⟩
    have hlo : -2 ^ 31 ≤ v ∧ v < 2 ^ 31 := by
      rcases hv with ⟨rfl, -⟩ | ⟨rfl, -⟩ <;> decide
    rw [hms] at hp ⊢
    rw [sent_chunkEvs_cons, List.append_assoc, List.append_assoc] at hp
    rw [sent_chunkEvs_cons]
    rw [runs_loop] at hx
    obtain ⟨y, w1, hr, hx⟩ := hx
    unfold ServerEnv.wtfsRound at hr
    simp only at hr
    rw [runs_bind] at hr
    obtain ⟨prefix_wrap, w2, h2, hr⟩ := hr
    rcases ofSock_cut (by simp) (by rw [i32Enc_length]; decide) hp h2 with hc | ⟨-, t1, rfl, hp1, rfl, rfl⟩
    · simp only [hc, if_true] at hr
      obtain ⟨rfl, rfl⟩ := (runs_pure _ _ _ _).mp hr
      obtain ⟨rfl, rfl⟩ := hx
      exact ⟨[], by simp, List.nil_prefix, by simp⟩
    obtain ⟨h0, hdec⟩ := unwrap_received_i32 E.na.aead E.server_rx (sodiumIncrement nonce) hlo.1 hlo.2
      (i32Enc_length p) 0
    simp only [received_corrupted, h0, hdec, Bool.false_eq_true, if_false, ne_eq, not_true_eq_false] at hr
    rw [runs_bind] at hr
    obtain ⟨o, w3, h3, hr⟩ := hr
    rcases recvRawBlob_cut hb0 (Nat.lt_of_le_of_lt hb0 (by decide)) hp1 h3 with rfl | ⟨t2, rfl, hp2, rfl, rfl⟩
    · obtain ⟨rfl, rfl⟩ := (runs_pure _ _ _ _).mp hr
      obtain ⟨rfl, rfl⟩ := hx
      exact ⟨[], by simp, List.nil_prefix, by simp⟩
    simp only at hr
    rcases hv with ⟨rfl, rfl, rfl⟩ | ⟨rfl, hne', rfl⟩
    · simp only [if_true] at hr
      obtain ⟨rfl, rfl⟩ := (runs_pure _ _ _ _).mp hr
      obtain ⟨rfl, rfl⟩ := hx
      refine ⟨[b], rfl, List.prefix_refl _, fun _ => ⟨t2, ?_⟩⟩
      simp [chunkEvs, sent]
    · simp only [show MEAT_CHUNK ≠ END_CHUNK by decide, if_false, if_true] at hr
      obtain ⟨rfl, rfl⟩ := (runs_pure _ _ _ _).mp hr
      obtain ⟨cs, hcs, hpre, hall⟩ := ih (fun c hc => hb c (List.mem_cons_of_mem _ hc)) hp2 hne' hx
      refine ⟨b :: cs, by simpa using hcs, (List.prefix_cons_inj b).mpr hpre, fun heq => ?_⟩
      obtain ⟨s, rfl⟩ := hall (List.cons.inj heq).2
      exact ⟨s, by simp⟩

/-- The loop has no state of its own. -/
theorem wtfsLoop_st (act : Nat) (g : ServerEnv.Receiving) : Moves Eq (loop (E.wtfsRound act) g) :=
  Moves.loop Eq.refl Eq.trans (ServerEnv.closed_wtfsRound (closed_moves Eq.refl Eq.trans) act) g

/-- The upload handler taken apart: it gives up in `init_read` and leaves the
files alone, or it stores what the loop published. -/
theorem wtfsOn_cases {os : List (Option Nat)} {r : Int} {w' : World FsOperator Role}
    (hx : Runs (wtfsHandlerServerOn E D act) ⟨st, inp, e, h, os⟩ r w') :
    ∃ x w1, Runs (E.initRead act (E.host.stack st.locals) (fit STREAM_HEADERBYTES (E.host.stack (st.locals + 1)))
        (fit PWHASH_SALTBYTES (E.host.stack (st.locals + 2))))
        ⟨{ st with locals := st.locals + 3 }, inp, e, h, os⟩ x w1 ∧
      match x with
      | .error _ => r = 1 ∧ w'.st.fs = st.fs
      | .ok (file_name_buf, header, salt) => ∃ st2 pub w2,
        Runs (loop (E.wtfsRound act) (0, END_CHUNK, [])) { w1 with st := st2 } (r, pub) w2 ∧
        w'.st.fs = D.stored st.fs E.cwd (E.user_dir ++ (cstr file_name_buf ++ ext))
          (header ++ salt ++ pub.flatten) := by
  unfold wtfsHandlerServerOn at hx
  rw [runs_bind] at hx
  obtain ⟨buf, v1, h1, hx⟩ := hx
  obtain ⟨rfl, rfl⟩ := (runs_modifyGet _ _ _ _).mp h1
  rw [runs_bind] at hx
  obtain ⟨header, v2, h2, hx⟩ := hx
  obtain ⟨rfl, rfl⟩ := (runs_modifyGet _ _ _ _).mp h2
  rw [runs_bind] at hx
  obtain ⟨salt, v3, h3, hx⟩ := hx
  obtain ⟨rfl, rfl⟩ := (runs_modifyGet _ _ _ _).mp h3
  rw [runs_bind] at hx
  obtain ⟨x, w1, hi, hx⟩ := hx
  have hfs : w1.st.fs = st.fs := ServerEnv.moves_parts.initRead act _ _ _ _ _ _ hi
  refine ⟨x, w1, hi, ?_⟩
  cases x with
  | error c =>
    obtain ⟨rfl, rfl⟩ := (runs_pure _ _ _ _).mp hx
    exact ⟨rfl, hfs⟩
  | ok x =>
    obtain ⟨file_name_buf, header', salt'⟩ := x
    simp only at hx
    rw [runs_bind] at hx
    obtain ⟨_, v4, h4, hx⟩ := hx
    obtain rfl := (runs_modify _ _ _ _).mp h4
    rw [runs_bind] at hx
    obtain ⟨_, v5, h5, hx⟩ := hx
    obtain rfl := (runs_modify _ _ _ _).mp h5
    rw [runs_bind] at hx
    obtain ⟨_, v6, h6, hx⟩ := hx
    obtain rfl := (runs_modify _ _ _ _).mp h6
    rw [runs_bind] at hx
    obtain ⟨⟨status, pub⟩, w2, hl, hx⟩ := hx
    rw [runs_bind] at hx
    obtain ⟨_, v7, h7, hx⟩ := hx
    obtain rfl := (runs_modify _ _ _ _).mp h7
    obtain ⟨rfl, rfl⟩ := (runs_pure _ _ _ _).mp hx
    refine ⟨_, _, _, hl, ?_⟩
    have hst := wtfsLoop_st act _ _ _ _ hl
    simp only [← hst, writtenOn_writtenOn, writtenOn_fs, writerOutput, hfs]

variable (E D act st e h) in
/-- On all the bytes of an upload. -/
theorem runs_wtfsOn (nonce nonce' : Bytes) {name header salt : Bytes} (hname : name.length ≤ PRE_EXT_FILE_NAME_LEN)
    (hh : header.length = STREAM_HEADERBYTES) (hs : salt.length = PWHASH_SALTBYTES) {bs : List Bytes} (hne : bs ≠ [])
    (hb : ∀ b ∈ bs, b.length ≤ FILE_ENCRYPTED_CHUNK_SIZE) (rest : Bytes) :
    ∃ w', Runs (wtfsHandlerServerOn E D act)
        ⟨st, sent (initEvs E.na.aead E.server_rx act nonce name header salt) ++
          (sent (chunkEvs E.na.aead E.server_rx act nonce' 0 (marked bs)) ++ rest), e, h, []⟩ 0 w' ∧
      w'.st.fs = D.stored st.fs E.cwd (E.user_dir ++ (cstr name ++ ext)) (header ++ salt ++ bs.flatten) := by
  let st4 : FsOperator := { st with locals := st.locals + 4 }
  refine ⟨⟨writtenOn D (header ++ salt ++ bs.flatten) (openedOn E D (cstr name ++ ext) st4), rest, e,
    h ++ initRcvs E.na.aead E.server_rx act nonce name header salt ++
      chunkRcvs E.na.aead E.server_rx act nonce' 0 (marked bs), []⟩, ?_, writtenOn_fs _ _ st4⟩
  refine Runs.modifyGet_bind ?_
  refine Runs.modifyGet_bind ?_
  refine Runs.modifyGet_bind ?_
  refine Runs.bind (ServerEnv.runs_initRead _ _ e h act nonce hname hh hs _ _ _ (fit_length _ _)
    (fit_length _ _)) ?_
  simp only [cstr_terminate]
  refine Runs.modify_bind ?_
  refine Runs.modify_bind ?_
  refine Runs.modify_bind ?_
  refine Runs.bind (ServerEnv.runs_wtfsLoop _ rest e _ act hne hb nonce' 0 END_CHUNK []) ?_
  refine Runs.modify_bind ?_
  simp only [runs_pure, true_and, List.nil_append, writtenOn_writtenOn, writerOutput]
  rfl

variable (E D act st e h) in
/-- The client has no such file. -/
theorem runs_wtfsOn_missing {n : Bytes} (hn : n.length = 8) (rest : Bytes) :
    ∃ w', Runs (wtfsHandlerServerOn E D act) ⟨st, frame E.na.aead E.server_rx n [0] ++ rest, e, h, []⟩ 1 w' := by
  refine ⟨⟨{ st with locals := st.locals + 3 }, rest, e,
    h ++ frameRcvs E.na.aead ⟨act, .fileExists⟩ E.server_rx n [0], []⟩, ?_⟩
  refine Runs.modifyGet_bind ?_
  refine Runs.modifyGet_bind ?_
  refine Runs.modifyGet_bind ?_
  refine Runs.bind (ServerEnv.runs_initRead_missing _ rest e h act hn _ _ _) ?_
  exact (runs_pure _ _ _ _).mpr ⟨rfl, rfl⟩

end

/-! ## The client, whatever its sends do -/

section
variable {σ ρ : Type}

theorem sendB_any (r : ρ) (b : Bytes) (w : World σ ρ) :
    ∃ o w', Runs (sendB r b) w o w' ∧ w'.st = w.st := by
  have hst := send_st w r b
  rcases hs : w.send r b with ⟨o, w'⟩
  rw [hs] at hst
  exact ⟨o, w', (runs_sendB _ _ _ _ _).mpr hs, hst⟩

theorem sendFrame_any (A : Aead) (r : ρ) (m tx nonce : Bytes) (w : World σ ρ) :
    ∃ w', Runs (sendFrame A r m tx nonce) w (sodiumIncrement nonce) w' ∧ w'.st = w.st := by
  obtain ⟨o, w', hsend, hst⟩ := sendB_any r (frame A tx (sodiumIncrement nonce) m) w
  have hall : ∃ n, Runs (sendAll r (ofData A m tx nonce).1) w n w' := by
    cases o with
    | none => exact ⟨-1, Runs.bind hsend ((runs_pure _ _ _ _).mpr ⟨rfl, rfl⟩)⟩
    | some k => exact ⟨k, Runs.bind hsend ((runs_pure _ _ _ _).mpr ⟨rfl, rfl⟩)⟩
  obtain ⟨n, hn⟩ := hall
  exact ⟨w', Runs.bind hn ((runs_pure _ _ _ _).mpr ⟨rfl, rfl⟩), hst⟩

theorem sendRawBlob_any (r : ρ) (b : Bytes) (w : World σ ρ) :
    ∃ x w', Runs (sendRawBlob r b) w x w' ∧ w'.st = w.st := by
  obtain ⟨o1, w1, h1, hst1⟩ := sendB_any r (u64Enc b.length) w
  obtain ⟨o2, w2, h2, hst2⟩ := sendB_any r b w1
  by_cases h8 : o1 = some 8
  · by_cases hb : b = []
    · exact ⟨0, w1, Runs.bind h1 (by simp [h8, hb]), hst1⟩
    · refine ⟨if o2 ≠ some b.length then 1 else 0, w2, Runs.bind h1 ?_, hst2.trans hst1⟩
      simp only [h8, hb, ne_eq, not_true_eq_false, if_false]
      exact Runs.bind h2 ((runs_ite_pure _ _ _ _ _ _).mpr ⟨rfl, rfl⟩)
  · exact ⟨1, w1, Runs.bind h1 (by simp [h8]), hst1⟩

end

section
variable {C : ClientEnv} {act : Nat}

variable (act) in
theorem sendLoop_any (b : Bytes) (j : Nat) (state : C.na.ss.State) (nonce : Bytes) (w : World ClientState Role) :
    ∃ n w', Runs (loop (C.sendRound act) (j, IStream.fresh b, state, nonce)) w n w' := by
  induction b using cut_induct chunk_size_pos generalizing j state nonce w with
  | short b hb =>
    obtain ⟨w1, h1, -⟩ := sendFrame_any C.na.aead (⟨act, .chunkPrefix j⟩ : Role) (i32Enc END_CHUNK) C.client_tx nonce w
    obtain ⟨x, w2, h2, -⟩ := sendRawBlob_any (⟨act, .chunk j⟩ : Role) (C.na.ss.push state b TAG_FINAL).2 w1
    refine ⟨sodiumIncrement nonce, w2, (runs_loop _ _ _ _ _).mpr ⟨.inr (sodiumIncrement nonce), w2, ?_, rfl, rfl⟩⟩
    simp only [ClientEnv.sendRound, IStream.read_short hb, IStream.ended_eofbit, if_true]
    exact Runs.bind h1 (Runs.bind h2 ((runs_pure _ _ _ _).mpr ⟨rfl, rfl⟩))
  | long b hb ih =>
    obtain ⟨w1, h1, -⟩ :=
      sendFrame_any C.na.aead (⟨act, .chunkPrefix j⟩ : Role) (i32Enc MEAT_CHUNK) C.client_tx nonce w
    obtain ⟨x, w2, h2, -⟩ :=
      sendRawBlob_any (⟨act, .chunk j⟩ : Role) (C.na.ss.push state (b.take CHUNK_SIZE) 0).2 w1
    obtain ⟨n, w3, h3⟩ := ih (j + 1) (C.na.ss.push state (b.take CHUNK_SIZE) 0).1 (sodiumIncrement nonce) w2
    refine ⟨n, w3, (runs_loop _ _ _ _ _).mpr ⟨.inl (j + 1, _, _, sodiumIncrement nonce), w2, ?_, h3⟩⟩
    simp only [ClientEnv.sendRound, IStream.read_full hb, IStream.fresh_eofbit, Bool.false_eq_true, if_false,
      show ¬ (0 : UInt8) = TAG_FINAL by decide]
    exact Runs.bind h1 (Runs.bind h2 ((runs_pure _ _ _ _).mpr ⟨rfl, rfl⟩))

/-- The salt of the next upload, and its key. -/
def saltOf (C : ClientEnv) (cst : ClientState) : Bytes := fit PWHASH_SALTBYTES (C.host.rand cst.draws)

def keyOf (C : ClientEnv) (cst : ClientState) : Bytes :=
  if C.host.oom cst.hashes then List.replicate BOX_SEEDBYTES 0 else C.na.pwhash C.password (saltOf C cst)

theorem setCrypto_any (SA : SenderAgent) (w : World ClientState Role) :
    Runs (C.setCrypto SA) w ⟨SA.nonce, keyOf C w.st, saltOf C w.st⟩
      { w with st := { w.st with draws := w.st.draws + 1, hashes := w.st.hashes + 1 } } := by
  refine Runs.modifyGet_bind ?_
  refine Runs.modifyGet_bind ?_
  cases ho : C.host.oom w.st.hashes <;> simp [ho, keyOf, saltOf]

variable (act) in
theorem initSend_any (SA : SenderAgent) (src : Source) (name header : Bytes) (w : World ClientState Role) :
    ∃ w', Runs (C.initSend act SA (some src) name header) w
      (0, sodiumIncrement (sodiumIncrement (sodiumIncrement (sodiumIncrement SA.nonce)))) w' := by
  obtain ⟨w1, h1, -⟩ := sendFrame_any C.na.aead (⟨act, .fileExists⟩ : Role) [1] C.client_tx SA.nonce w
  obtain ⟨w2, h2, -⟩ := sendFrame_any C.na.aead (⟨act, .fileName⟩ : Role) name C.client_tx
    (sodiumIncrement SA.nonce) w1
  obtain ⟨w3, h3, -⟩ := sendFrame_any C.na.aead (⟨act, .header⟩ : Role) header C.client_tx
    (sodiumIncrement (sodiumIncrement SA.nonce)) w2
  obtain ⟨w4, h4, -⟩ := sendFrame_any C.na.aead (⟨act, .salt⟩ : Role) SA.salt C.client_tx
    (sodiumIncrement (sodiumIncrement (sodiumIncrement SA.nonce))) w3
  refine ⟨w4, Runs.bind h1 ?_⟩
  refine Runs.bind h2 ?_
  refine Runs.bind h3 ?_
  exact Runs.bind h4 ((runs_pure _ _ _ _).mpr ⟨rfl, rfl⟩)

/-- A file that can be read to its end is an upload that returns 0. -/
theorem wtfsHandler_any (SA : SenderAgent) {name c : Bytes} {w : World ClientState Role}
    (hf : w.st.fs.openRead C.cwd name = some ⟨c, false⟩) : ∃ w', Runs (C.wtfsHandler act SA name) w 0 w' := by
  let x := C.na.ss.initPush (fit STREAM_HEADERBYTES (C.host.rand (w.st.draws + 1))) (keyOf C w.st)
  obtain ⟨w1, h1⟩ := initSend_any act ⟨SA.nonce, keyOf C w.st, saltOf C w.st⟩ ⟨c, false⟩ name x.2
    { w with st := { w.st with draws := w.st.draws + 2, hashes := w.st.hashes + 1 } }
  obtain ⟨n, w2, h2⟩ := sendLoop_any act c 0 x.1
    (sodiumIncrement (sodiumIncrement (sodiumIncrement (sodiumIncrement SA.nonce)))) w1
  have hsend : Runs (C.encryptAndSendToServer act SA name) w 0 w2 := by
    refine Runs.bind (setCrypto_any SA w) ?_
    refine Runs.read_bind ?_
    simp only [hf]
    refine Runs.modifyGet_bind ?_
    refine Runs.bind h1 ?_
    exact Runs.bind h2 ((runs_pure _ _ _ _).mpr ⟨rfl, rfl⟩)
  exact ⟨w2, Runs.bind hsend (by simp)⟩

theorem wtfsHandler_missing (SA : SenderAgent) {name : Bytes} {w : World ClientState Role}
    (hf : w.st.fs.openRead C.cwd name = none) : ∃ w', Runs (C.wtfsHandler act SA name) w 1 w' := by
  obtain ⟨w1, h1, -⟩ := sendFrame_any C.na.aead (⟨act, .fileExists⟩ : Role) [0] C.client_tx SA.nonce
    { w with st := { w.st with draws := w.st.draws + 2, hashes := w.st.hashes + 1 } }
  have hsend : Runs (C.encryptAndSendToServer act SA name) w 1 w1 := by
    refine Runs.bind (setCrypto_any SA w) ?_
    refine Runs.read_bind ?_
    simp only [hf]
    refine Runs.modifyGet_bind ?_
    refine Runs.bind (Runs.bind h1 ((runs_pure _ _ _ _).mpr ⟨rfl, rfl⟩)) ?_
    exact (runs_pure _ _ _ _).mpr ⟨rfl, rfl⟩
  exact ⟨w1, Runs.bind hsend (by simp)⟩

end

/-! ## Attempts -/

/-- An upload of `name` and what happens to it: what the client's sends accept,
the bytes that arrive at the server and whether the stream then ends, and the
server's disk. -/
structure Attempt where
  C : ClientEnv
  E : ServerEnv
  linked : Linked C E
  act : Nat
  SA : SenderAgent
  name : Bytes
  /-- it is a `std::string` -/
  name_size : name.length < 2 ^ 63
  cst : ClientState
  st : FsOperator
  outcomes : List (Option Nat)
  disk : Disk
  inp : Bytes
  eof : Bool

namespace Attempt

variable (A : Attempt)

/-- The client's file. -/
def file : Option Source := A.cst.fs.openRead A.C.cwd A.name

def salt : Bytes := saltOf A.C A.cst

def r : Bytes := fit STREAM_HEADERBYTES (A.C.host.rand (A.cst.draws + 1))

def header : Bytes := (A.C.na.ss.initPush A.r (keyOf A.C A.cst)).2

/-- The ciphertext chunks of `c`, the last one sent with `END_CHUNK`. -/
def chunks (c : Bytes) : List Bytes :=
  pushAll A.C.na.ss (A.C.na.ss.initPush A.r (keyOf A.C A.cst)).1 (cut CHUNK_SIZE c)

/-- The bytes of the upload. -/
def bytes : Bytes :=
  match A.file with
  | none => frame A.C.na.aead A.C.client_tx (sodiumIncrement A.SA.nonce) [0]
  | some src =>
    sent (initEvs A.C.na.aead A.C.client_tx A.act A.SA.nonce A.name A.header A.salt) ++
      sent (chunkEvs A.C.na.aead A.C.client_tx A.act
        (sodiumIncrement (sodiumIncrement (sodiumIncrement (sodiumIncrement A.SA.nonce)))) 0
        (marked (A.chunks src.bytes)))

/-- The file on the server. -/
def path : Bytes := A.E.user_dir ++ (cstr A.name ++ ext)

/-- What belongs in it. -/
def content (c : Bytes) : Bytes := A.header ++ A.salt ++ (A.chunks c).flatten

/-- Header, salt and every chunk of the upload are in `name.enc`. -/
def Holds (s : FsOperator) : Prop :=
  ∃ src, A.file = some src ∧ s.fs.openRead A.E.cwd A.path = some ⟨A.content src.bytes, false⟩

def ClientReturns (ret : Int) : Prop :=
  ∃ w', Runs (A.C.wtfsHandler A.act A.SA A.name) ⟨A.cst, [], false, [], A.outcomes⟩ ret w'

def ServerReturns (ret : Int) (s : FsOperator) : Prop :=
  ∃ w', Runs (wtfsHandlerServerOn A.E A.disk A.act) ⟨A.st, A.inp, A.eof, [], []⟩ ret w' ∧ w'.st = s

/-- Whichever side reports the upload, it is stored. -/
def Kept : Prop :=
  (A.ClientReturns 0 → ∃ ret s, A.ServerReturns ret s ∧ A.Holds s) ∧ ∀ s, A.ServerReturns 0 s → A.Holds s

/-- Nothing goes wrong: all bytes of the upload arrive, the file, if there is
one, is no directory, and the server can store it. -/
structure Sound : Prop where
  whole : A.bytes <+: A.inp
  regular : ∀ src, A.file = some src → src.bad = false
  name : ∀ src, A.file = some src → A.name.length ≤ PRE_EXT_FILE_NAME_LEN
  opens : ∀ src, A.file = some src → A.disk.opens = true ∧ (A.st.fs.openTrunc A.E.cwd A.path).isSome
  fits : ∀ src, A.file = some src → A.disk.Fits (A.content src.bytes)

/-- As far as the stream goes, it is what the client sent. -/
def Genuine : Prop := ∃ t, A.inp <+: A.bytes ++ t

variable {A}

theorem header_length : A.header.length = STREAM_HEADERBYTES := A.C.na.ss.header_length _ _

theorem salt_length : A.salt.length = PWHASH_SALTBYTES := fit_length _ _

theorem chunks_blocky (c : Bytes) : Blocky FILE_ENCRYPTED_CHUNK_SIZE (A.chunks c) := pushAll_blocky _ _ c

/-- Sends that are taken whole put the bytes of the upload on the wire. -/
theorem client_sends {c : Bytes} (hf : A.file = some ⟨c, false⟩) (ho : A.outcomes = []) :
    ∃ w', Runs (A.C.wtfsHandler A.act A.SA A.name) ⟨A.cst, [], false, [], A.outcomes⟩ 0 w' ∧
      sent w'.hist = A.bytes := by
  let n4 := sodiumIncrement (sodiumIncrement (sodiumIncrement (sodiumIncrement A.SA.nonce)))
  let st2 : ClientState := { A.cst with draws := A.cst.draws + 2, hashes := A.cst.hashes + 1 }
  obtain ⟨n, hloop⟩ := ClientEnv.runs_sendLoop (C := A.C) st2 [] false
    ([] ++ initEvs A.C.na.aead A.C.client_tx A.act A.SA.nonce A.name A.header A.salt) A.act c 0
    (A.C.na.ss.initPush A.r (keyOf A.C A.cst)).1 n4
  have hinit := ClientEnv.runs_initSend (C := A.C) st2 [] false [] A.act ⟨A.SA.nonce, keyOf A.C A.cst, A.salt⟩
    ⟨c, false⟩ A.name A.header
  have hsend : Runs (A.C.encryptAndSendToServer A.act A.SA A.name) ⟨A.cst, [], false, [], []⟩ 0
      ⟨st2, [], false, [] ++ initEvs A.C.na.aead A.C.client_tx A.act A.SA.nonce A.name A.header A.salt ++
        chunkEvs A.C.na.aead A.C.client_tx A.act n4 0 (marked (A.chunks c)), []⟩ := by
    refine Runs.bind (setCrypto_any A.SA _) ?_
    refine Runs.read_bind ?_
    rw [show A.cst.fs.openRead A.C.cwd A.name = _ from hf]
    refine Runs.modifyGet_bind ?_
    refine Runs.bind hinit ?_
    exact Runs.bind hloop ((runs_pure _ _ _ _).mpr ⟨rfl, rfl⟩)
  rw [ho]
  refine ⟨_, Runs.bind hsend ((runs_pure _ _ _ _).mpr ⟨rfl, rfl⟩), ?_⟩
  simp only [bytes, hf, List.nil_append, sent_append, chunks, n4]

/-- A sound attempt is stored. -/
theorem Sound.stores (hS : A.Sound) {src : Source} (hf : A.file = some src) :
    ∃ s, A.ServerReturns 0 s ∧ A.Holds s := by
  obtain ⟨rest, hrest⟩ := hS.whole
  obtain ⟨hopens, hpath⟩ := hS.opens src hf
  have hb := A.chunks_blocky src.bytes
  obtain ⟨w', hr, hfs⟩ := runs_wtfsOn A.E A.disk A.act A.st A.eof [] A.SA.nonce
    (sodiumIncrement (sodiumIncrement (sodiumIncrement (sodiumIncrement A.SA.nonce)))) (hS.name src hf)
    A.header_length A.salt_length hb.ne_nil hb.le rest
  rw [A.linked.na, A.linked.up, ← List.append_assoc] at hr
  simp only [bytes, hf] at hrest
  rw [hrest] at hr
  refine ⟨w'.st, ⟨w', hr, rfl⟩, src, hf, ?_⟩
  have hfit : A.disk.takes [] (A.content src.bytes) = A.content src.bytes := Disk.takes_of_fits (hS.fits src hf)
  rw [hfs]
  simp only [Disk.stored, hopens, if_true]
  rw [← hfit]
  exact FS.openRead_stored hpath _

theorem chunk_ne_nil {c b : Bytes} (hb : b ∈ A.chunks c) : b ≠ [] := by
  have hl := pushAll_lengths A.C.na.ss (A.C.na.ss.initPush A.r (keyOf A.C A.cst)).1 (cut CHUNK_SIZE c)
  have hmem : b.length ∈ (A.chunks c).map List.length := List.mem_map_of_mem hb
  rw [chunks, hl] at hmem
  obtain ⟨m, -, hm⟩ := List.mem_map.mp hmem
  rintro rfl
  simp [STREAM_ABYTES] at hm

/-- Some of the chunks with as many bytes as all of them are all of them. -/
theorem chunks_eq_of_length {c : Bytes} {cs : List Bytes} (hpre : cs <+: A.chunks c)
    (hlen : (A.chunks c).flatten.length ≤ cs.flatten.length) : cs = A.chunks c := by
  obtain ⟨ds, hds⟩ := hpre
  have hnil : ds.flatten = [] := by
    rw [← hds, List.flatten_append, List.length_append] at hlen
    exact List.length_eq_zero_iff.mp (by omega)
  cases ds with
  | nil => rw [← hds, List.append_nil]
  | cons d ds =>
    rw [List.flatten_cons, List.append_eq_nil_iff] at hnil
    refine absurd hnil.1 (A.chunk_ne_nil (c := c) ?_)
    rw [← hds]
    simp

/-- What the server makes of the client's bytes, as many as it gets: nothing, or
some of the chunks are stored. -/
theorem server_stores {c : Bytes} (hf : A.file = some ⟨c, false⟩) (hg : A.Genuine) {ret : Int} {s : FsOperator}
    (hs : A.ServerReturns ret s) :
    s.fs = A.st.fs ∨ A.name.length ≤ PRE_EXT_FILE_NAME_LEN ∧ ∃ cs, cs <+: A.chunks c ∧
      (cs = A.chunks c → A.bytes <+: A.inp) ∧
      s.fs = A.disk.stored A.st.fs A.E.cwd A.path (A.header ++ A.salt ++ cs.flatten) := by
  obtain ⟨w', hr, rfl⟩ := hs
  obtain ⟨x, w1, hi, hx⟩ := wtfsOn_cases hr
  cases x with
  | error c => exact .inl hx.2
  | ok x =>
    obtain ⟨file_name_buf, header, salt⟩ := x
    obtain ⟨st2, pub, w2, hl, hfs⟩ := hx
    obtain ⟨t, ht⟩ := hg
    have hbytes : A.bytes = sent (initEvs A.E.na.aead A.E.server_rx A.act A.SA.nonce A.name A.header A.salt) ++
        sent (chunkEvs A.E.na.aead A.E.server_rx A.act
          (sodiumIncrement (sodiumIncrement (sodiumIncrement (sodiumIncrement A.SA.nonce)))) 0
          (marked (A.chunks c))) := by
      simp only [bytes, hf, A.linked.na, A.linked.up]
    rw [hbytes, List.append_assoc] at ht
    have h64 : A.name.length + AEAD_ABYTES < 2 ^ 64 := by
      have hsize := A.name_size
      simp only [AEAD_ABYTES]
      omega
    obtain ⟨hname, t1, hinp, hp1⟩ := initRead_cut h64 A.header_length A.salt_length ht hi
    rw [hinp] at hi
    obtain ⟨hx, rfl⟩ := hi.unique (ServerEnv.runs_initRead _ t1 A.eof [] A.act A.SA.nonce hname A.header_length
      A.salt_length _ _ _ (fit_length _ _) (fit_length _ _))
    simp only [Except.ok.injEq, Prod.mk.injEq] at hx
    obtain ⟨rfl, rfl, rfl⟩ := hx
    have hb := A.chunks_blocky c
    obtain ⟨cs, hcs, hpre, hall⟩ := wtfsLoop_cut hb.le hp1 hb.ne_nil hl
    simp only [List.nil_append] at hcs
    refine .inr ⟨hname, cs, hpre, fun heq => ?_, ?_⟩
    · rw [hbytes, hinp]
      exact (List.prefix_append_right_inj _).mpr (hall heq)
    · rw [hfs, cstr_terminate, hcs]
      rfl

/-- Where the stream is the client's as far as it goes, only a sound attempt is
stored as reported. -/
theorem Kept.sound {c : Bytes} (hf : A.file = some ⟨c, false⟩) (hnew : ¬ A.Holds A.st) (hg : A.Genuine)
    (hk : A.Kept) : A.Sound := by
  obtain ⟨ret, s, hs, src, hsrc, hread⟩ := hk.1 (wtfsHandler_any A.SA hf)
  obtain rfl : src = ⟨c, false⟩ := Option.some.inj (hsrc.symm.trans hf)
  have hsame : s.fs ≠ A.st.fs := by
    intro hfs
    rw [hfs] at hread
    exact hnew ⟨_, hf, hread⟩
  rcases server_stores hf hg hs with hfs | ⟨hname, cs, hpre, hwhole, hfs⟩
  · exact absurd hfs hsame
  have hopens : A.disk.opens = true := by
    by_contra ho
    simp only [Disk.stored, ho, if_false] at hfs
    exact hsame hfs
  simp only [Disk.stored, hopens, if_true] at hfs
  have hpath : (A.st.fs.openTrunc A.E.cwd A.path).isSome := by
    by_contra ho
    rw [Option.not_isSome_iff_eq_none] at ho
    simp only [FS.stored, ho] at hfs
    exact hsame hfs
  have hread' := FS.openRead_stored hpath (A.disk.takes [] (A.header ++ A.salt ++ cs.flatten))
  rw [← hfs, hread] at hread'
  have heq : A.content c = A.disk.takes [] (A.header ++ A.salt ++ cs.flatten) := by
    simpa using hread'
  -- what the disk took of the chunks that came is as long as all of them
  have hlen := (A.disk.takes_begins [] (A.header ++ A.salt ++ cs.flatten)).length_le
  simp only [← heq, content, List.length_append] at hlen
  obtain rfl := A.chunks_eq_of_length hpre (by omega)
  have hfits : A.disk.Fits (A.content c) := Disk.fits_of_takes (by rw [content, ← heq, content])
  have hall : ∀ {P : Source → Prop}, P ⟨c, false⟩ → ∀ src, A.file = some src → P src := by
    intro P hP src hsrc
    obtain rfl := Option.some.inj (hsrc.symm.trans hf)
    exact hP
  exact ⟨hwhole rfl, hall rfl, hall (P := fun _ => _) hname, hall (P := fun _ => _) ⟨hopens, hpath⟩,
    hall (P := fun src => A.disk.Fits (A.content src.bytes)) hfits⟩

end Attempt

/-- An upload that nothing goes wrong with is stored as soon as one side
reports it. Where the stream is the client's as far as it goes, that is the only
way for a new upload to be stored as reported. -/
theorem reported_upload_stored (A : Attempt) : (A.Sound → A.Kept) ∧
    ∀ c, A.file = some ⟨c, false⟩ → ¬ A.Holds A.st → A.Genuine → A.Kept → A.Sound := by
  refine ⟨fun hS => ?_, fun c hf hnew hg hk => hk.sound hf hnew hg⟩
  cases hf : A.file with
  | none =>
    -- no file, no upload: both sides return 1
    obtain ⟨rest, hrest⟩ := hS.whole
    simp only [Attempt.bytes, hf] at hrest
    obtain ⟨ws, hserver⟩ := runs_wtfsOn_missing A.E A.disk A.act A.st A.eof []
      (sodiumIncrement_length A.SA.nonce) rest
    rw [A.linked.na, A.linked.up, hrest] at hserver
    constructor
    · rintro ⟨w', hr⟩
      obtain ⟨wc, hclient⟩ := wtfsHandler_missing A.SA (w := ⟨A.cst, [], false, [], A.outcomes⟩) hf
      exact absurd (hr.unique hclient).1 (by decide)
    · rintro s ⟨w', hr, -⟩
      exact absurd (hr.unique hserver).1 (by decide)
  | some src =>
    obtain ⟨s, hs, hh⟩ := hS.stores hf
    refine ⟨fun _ => ⟨0, s, hs, hh⟩, ?_⟩
    rintro s' ⟨w', hr, rfl⟩
    obtain ⟨w, hr0, rfl⟩ := hs
    rw [(hr.unique hr0).2]
    exact hh

/-! ## Alice uploads `"a"` -/

/-- All sends are taken and the disk is sound; `inp` arrives and the stream
ends. -/
def aliceAttempt (inp : Bytes) : Attempt where
  C := aliceClient
  E := aliceServer
  linked := alice_linked
  act := 0
  SA := ⟨u64Enc 0, [], []⟩
  name := [97]
  name_size := by decide
  cst := aliceHome
  st := aliceDir
  outcomes := []
  disk := .sound
  inp := inp
  eof := true

def aliceBytes : Bytes := (aliceAttempt []).bytes

theorem aliceAttempt_file (inp : Bytes) : (aliceAttempt inp).file = some ⟨[1, 2, 3], false⟩ := by
  have hf : (aliceAttempt []).file = some ⟨[1, 2, 3], false⟩ := by decide
  exact hf

theorem reported_upload_stored_alice : ∃ w', Runs (aliceClient.wtfsHandler 0 ⟨u64Enc 0, [], []⟩ [97])
    ⟨aliceHome, [], false, [], []⟩ 0 w' ∧ sent w'.hist = aliceBytes ∧
    (aliceAttempt aliceBytes).Sound ∧ (aliceAttempt aliceBytes).Kept := by
  obtain ⟨w', hr, hs⟩ := Attempt.client_sends (aliceAttempt_file aliceBytes) rfl
  have hsound : (aliceAttempt aliceBytes).Sound := by
    refine ⟨List.prefix_refl aliceBytes, fun src hf => ?_, fun _ _ => by decide,
      fun _ _ => ⟨rfl, by decide +kernel⟩, ?_⟩
    · rw [aliceAttempt_file] at hf
      cases hf
      rfl
    · intro src _ k hk
      cases hk
  exact ⟨w', hr, hs, hsound, (reported_upload_stored _).1 hsound⟩

/-- The connection breaks behind the salt. -/
def aliceStart : Bytes :=
  sent (initEvs aliceClient.na.aead aliceClient.client_tx 0 (u64Enc 0) [97] (aliceAttempt []).header
    (aliceAttempt []).salt)

/-- Both sides report the upload, and the server has no chunk of it. -/
theorem cut_upload_reported : ∃ s, (aliceAttempt aliceStart).ClientReturns 0 ∧
    (aliceAttempt aliceStart).ServerReturns 0 s ∧ ¬ (aliceAttempt aliceStart).Holds s := by
  have hclient : (aliceAttempt aliceStart).ClientReturns 0 := wtfsHandler_any _ (aliceAttempt_file aliceStart)
  have hserver : (exec 2 (wtfsHandlerServerOn aliceServer .sound 0)
      ⟨aliceDir, aliceStart, true, [], []⟩).map Prod.fst = some 0 := by decide +kernel
  obtain ⟨⟨ret, w'⟩, hx, rfl⟩ := Option.map_eq_some_iff.mp hserver
  refine ⟨w'.st, hclient, ⟨w', ⟨2, hx⟩, rfl⟩, fun hh => ?_⟩
  -- otherwise it would be kept, and all of its bytes there
  have hkept : (aliceAttempt aliceStart).Kept := by
    refine ⟨fun _ => ⟨0, w'.st, ⟨w', ⟨2, hx⟩, rfl⟩, hh⟩, ?_⟩
    rintro s ⟨w2, hr, rfl⟩
    rw [(hr.unique ⟨2, hx⟩).2]
    exact hh
  have hnew : ¬ (aliceAttempt aliceStart).Holds aliceDir := by
    rintro ⟨src, -, hr⟩
    have hnone : aliceDir.fs.openRead aliceServer.cwd (aliceAttempt aliceStart).path = none := by decide +kernel
    exact absurd (hnone.symm.trans hr) (by simp)
  have hgen : (aliceAttempt aliceStart).Genuine := ⟨[], by
    rw [List.append_nil]
    exact List.prefix_append aliceStart _⟩
  have hsound := hkept.sound (aliceAttempt_file aliceStart) hnew hgen
  exact absurd hsound.whole (by decide +kernel)

end Mefsc.L4
