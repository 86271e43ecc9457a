import Mefsc.L3Protocol.HandleConn
import Mefsc.L4App.RoundTrip

/-!
# Sessions that end

The dispatch loop and the upload loop read a frame in every round, so on a
finite stream they end. The download loop reads the file in every round and
looks at `eof()` alone: a read that fails without reaching the end of the file
sets another bit, and the loop goes on for good.

`handle_conn_ends_iff`: on every finite stream, whatever the sends do,
`handle_conn` ends exactly when it gets to no download of a file that opens and
cannot be read to its end.
-/
namespace Mefsc.L4

open L1 L1.SessionEncWrapper L2 L3
open Proc hiding ret recv send act iter bind

/-! ## Reading -/

section
variable {σ ρ : Type} {w w' : World σ ρ}

theorem recvN_some {r : ρ} {n : Nat} {b : Bytes} (h : Runs (recvN r n) w (some b) w') :
    w'.inp.length + n = w.inp.length := by
  rw [runs_recvN] at h
  unfold World.recv at h
  split at h
  · rename_i hn
    simp only [Option.some.injEq, Prod.mk.injEq] at h
    rw [← h.2, List.length_drop]
    omega
  · split at h <;> simp at h

/-- A frame that is not corrupted takes bytes off the stream. -/
theorem ofSock_consumes {r : ρ} {x : SessionEncWrapper} (h : Runs (ofSock r) w x w')
    (hx : x.corrupted = false) : w'.inp.length < w.inp.length := by
  unfold ofSock at h
  rw [runs_bind] at h
  obtain ⟨o, w1, h1, h⟩ := h
  cases o with
  | none =>
    obtain ⟨rfl, -⟩ := (runs_pure _ _ _ _).mp h
    simp at hx
  | some lenBytes =>
    have hlt := recvN_some h1
    have hle := h.inp_le
    omega

end

section
variable {E : ServerEnv} {act : Nat} {w w' : World FsOperator Role}

theorem notice_consumes (h : Runs (E.receiveNoticeOfNewAction act) w 0 w') :
    w'.inp.length < w.inp.length := by
  unfold ServerEnv.receiveNoticeOfNewAction at h
  rw [runs_bind] at h
  obtain ⟨mem, w1, h1, h⟩ := h
  rw [runs_bind] at h
  obtain ⟨x, w2, h2, h⟩ := h
  by_cases hc : x.corrupted = true
  · simp [hc] at h
  · have hlt := ofSock_consumes h2 (by simpa using hc)
    exact Nat.lt_of_le_of_lt h.inp_le (Nat.lt_of_lt_of_le hlt h1.inp_le)

/-! ## Upload -/

theorem wtfsRound_consumes {g g' : ServerEnv.Receiving} (h : Runs (E.wtfsRound act g) w (.inl g') w') :
    w'.inp.length < w.inp.length := by
  obtain ⟨j, p, pub⟩ := g
  unfold ServerEnv.wtfsRound at h
  simp only at h
  rw [runs_bind] at h
  obtain ⟨x, w1, h1, h⟩ := h
  by_cases hc : x.corrupted = true
  · simp [hc] at h
  · exact Nat.lt_of_le_of_lt h.inp_le (ofSock_consumes h1 (by simpa using hc))

theorem halts_wtfsHandlerServer (he : w.eof = true) : Halts (E.wtfsHandlerServer act) w := by
  have hS := ServerEnv.straight_parts
  refine (hS.uninit.halts he).bind fun buf w1 h1 => ?_
  refine (hS.uninit.halts (h1.eof.trans he)).bind fun header w2 h2 => ?_
  have he2 := h2.eof.trans (h1.eof.trans he)
  refine (hS.uninit.halts he2).bind fun salt w3 h3 => ?_
  have he3 := h3.eof.trans he2
  refine ((hS.initRead act _ _ _).halts he3).bind fun x w4 h4 => ?_
  have he4 := h4.eof.trans he3
  cases x with
  | error r => exact (hS.pure _).halts he4
  | ok x =>
    have hact : ∀ f : FsOperator → FsOperator, Straight (modify f : Server Unit) := fun _ _ => trivial
    refine ((hact _).halts he4).bind fun _ w5 h5 => ?_
    have he5 := h5.eof.trans he4
    refine ((hact _).halts he5).bind fun _ w6 h6 => ?_
    have he6 := h6.eof.trans he5
    refine ((hact _).halts he6).bind fun _ w7 h7 => ?_
    have he7 := h7.eof.trans he6
    refine Halts.bind ?_ fun y w8 h8 => ?_
    · refine halts_loop (I := fun _ w => w.eof = true) (fun _ w => w.inp.length) ?_ ?_ he7
      · exact fun g w hw => (hS.wtfsRound act g).halts hw
      · exact fun g w g' w' hw hr => ⟨hr.eof.trans hw, wtfsRound_consumes hr⟩
    · have he8 := h8.eof.trans he7
      exact ((hact _).halts he8).bind fun _ w9 h9 => (hS.pure _).halts (h9.eof.trans he8)

/-! ## Download -/

theorem read_bad (s : IStream) (n : Nat) : (s.read n).2.bad = s.bad := by
  unfold IStream.read
  split
  · rfl
  · split
    · rfl
    · split <;> rfl

/-- A stream that fails does not get to its end. -/
theorem read_eofbit_of_bad {s : IStream} (hb : s.bad = true) (he : s.eofbit = false) (n : Nat) :
    (s.read n).2.eofbit = false := by
  unfold IStream.read
  split
  · exact he
  · split
    · exact he
    · simpa [hb] using he

/-- One that does not fail, before and behind its end. -/
structure Good (s : IStream) : Prop where
  bad : s.bad = false
  ends : s.failbit = true → s.eofbit = true

theorem Good.read {s : IStream} (h : Good s) (n : Nat) : Good (s.read n).2 := by
  refine ⟨(read_bad s n).trans h.bad, ?_⟩
  unfold IStream.read
  split
  · rename_i hx
    intro _
    cases he : s.eofbit with
    | true => rfl
    | false =>
      rw [he, Bool.false_or] at hx
      exact absurd (h.ends hx) (by simp [he])
  · split
    · exact h.ends
    · rw [h.bad]
      exact fun _ => rfl

theorem Good.read_rest {s : IStream} (h : Good s) {n : Nat} (hn : 0 < n)
    (he : (s.read n).2.eofbit = false) : (s.read n).2.rest.length < s.rest.length := by
  unfold IStream.read at he ⊢
  split at he
  · rename_i hx
    exfalso
    have hne : s.eofbit = false := he
    rw [hne, Bool.false_or] at hx
    exact absurd (h.ends hx) (by simp [hne])
  · rename_i hx
    rw [if_neg hx]
    split at he
    · rename_i hl
      rw [if_pos hl]
      show (s.rest.drop n).length < s.rest.length
      rw [List.length_drop]
      omega
    · rw [h.bad] at he
      simp at he

theorem rffsRound_eq {g : Nat × IStream} {x : (Nat × IStream) ⊕ Int} (h : Runs (E.rffsRound act g) w x w') :
    x = if (g.2.read FILE_ENCRYPTED_CHUNK_SIZE).2.eofbit then .inr 0
      else .inl (g.1 + 1, (g.2.read FILE_ENCRYPTED_CHUNK_SIZE).2) := by
  rcases hx : g.2.read FILE_ENCRYPTED_CHUNK_SIZE with ⟨file_chunk, file⟩
  simp only [ServerEnv.rffsRound, hx] at h
  rw [runs_bind] at h
  obtain ⟨_, w1, -, h⟩ := h
  rw [runs_bind] at h
  obtain ⟨_, w2, -, h⟩ := h
  exact ((runs_ite_pure _ _ _ _ _ _).mp h).1

theorem halts_rffsLoop {g : Nat × IStream} (hg : Good g.2) (he : w.eof = true) :
    Halts (loop (E.rffsRound act) g) w := by
  refine halts_loop (I := fun g w => Good g.2 ∧ w.eof = true) (fun g _ => g.2.rest.length) ?_ ?_ ⟨hg, he⟩
  · exact fun g w hI => (ServerEnv.straight_parts.rffsRound act g).halts hI.2
  · intro g w g' w' hI hr
    have hx := rffsRound_eq hr
    split at hx
    · cases hx
    · rename_i hne
      cases hx
      exact ⟨⟨hI.1.read _, hr.eof.trans hI.2⟩,
        hI.1.read_rest file_chunk_size_pos (by simpa using hne)⟩

/-- The loop does not end on a stream that fails. -/
theorem not_halts_rffsLoop {g : Nat × IStream} (hb : g.2.bad = true) (he : g.2.eofbit = false) :
    ¬ Halts (loop (E.rffsRound act) g) w := by
  rintro ⟨b, w', h⟩
  refine Runs.loop_induct (I := fun g _ => g.2.bad = true ∧ g.2.eofbit = false) (Q := fun _ _ => False)
    ?_ ?_ ⟨hb, he⟩ h
  · intro g w g' w' hI hr
    have hx := rffsRound_eq hr
    rw [read_eofbit_of_bad hI.1 hI.2] at hx
    cases hx
    exact ⟨(read_bad _ _).trans hI.1, read_eofbit_of_bad hI.1 hI.2 _⟩
  · intro g w b w' hI hr
    have hx := rffsRound_eq hr
    rw [read_eofbit_of_bad hI.1 hI.2] at hx
    cases hx

theorem straight_sendHead (src : Source) : Straight (E.sendHead act src) := by
  have hS := ServerEnv.straight_parts
  refine hS.bind hS.uninit fun _ => ?_
  refine hS.bind hS.uninit fun _ => ?_
  refine hS.bind (hS.sendSession _ _) fun _ => ?_
  exact hS.bind (hS.sendSession _ _) fun _ => hS.pure _

/-- The stream the loop starts with. -/
theorem sendHead_eq {src : Source} {file : IStream} (h : Runs (E.sendHead act src) w file w') :
    file = (((IStream.ofSource src).read STREAM_HEADERBYTES).2.read PWHASH_SALTBYTES).2 := by
  unfold ServerEnv.sendHead at h
  simp only [runs_bind, runs_pure] at h
  obtain ⟨_, _, -, _, _, -, _, _, -, _, _, -, h, -⟩ := h
  exact h

theorem halts_sendFile_iff {src : Source} (he : w.eof = true) :
    Halts (E.sendFile act src) w ↔ src.bad = false := by
  rw [ServerEnv.sendFile_eq]
  constructor
  · intro h
    have hhead : Straight (E.sendHead act src) := straight_sendHead src
    obtain ⟨file, w1, h1⟩ := hhead.halts he
    have hl := h.of_bind h1
    rw [sendHead_eq h1] at hl
    by_contra hb
    have hb : (IStream.ofSource src).bad = true := by simpa [IStream.ofSource] using hb
    have h1b := (read_bad _ STREAM_HEADERBYTES).trans hb
    have h1e := read_eofbit_of_bad hb rfl STREAM_HEADERBYTES
    exact not_halts_rffsLoop ((read_bad _ PWHASH_SALTBYTES).trans h1b)
      (read_eofbit_of_bad h1b h1e PWHASH_SALTBYTES) hl
  · intro hb
    refine ((straight_sendHead src).halts he).bind fun file w1 h1 => ?_
    rw [sendHead_eq h1]
    have hg : Good (IStream.ofSource src) := ⟨hb, fun h => by cases h⟩
    exact halts_rffsLoop ((hg.read _).read _) (h1.eof.trans he)

/-- A download request for a file that opens and cannot be read to its
end. -/
def BadDownload (E : ServerEnv) (fails : Nat → Option Nat) (act : Nat) (w : World FsOperator Role) : Prop :=
  ∃ w1 w2 buf wrap src, E.Asks act READ_FROM_FILESYSTEM w w1 ∧ Runs (E.takeName act) w1 (buf, wrap) w2 ∧
    wrap.corrupted = false ∧
    (wrap.unwrap E.na.aead E.server_rx PRE_EXT_FILE_NAME_LEN buf 0).ret = 0 ∧
    w2.st.fs.openRead E.cwd (E.user_dir ++
      cstr (wrap.unwrap E.na.aead E.server_rx PRE_EXT_FILE_NAME_LEN buf 0).decrypted_data) = some src ∧
    (failing (fails w2.st.names.length) src).bad = true

/-- On a client's request. -/
theorem badDownload_request (fails : Nat → Option Nat) (act : Nat) {n1 n2 n3 name : Bytes}
    (h1 : n1.length = 8) (h2 : n2.length = 8) (h3 : n3.length = 8)
    (hl : (name ++ [0]).length ≤ PRE_EXT_FILE_NAME_LEN) {st : FsOperator} {src : Source}
    (ho : st.fs.openRead E.cwd (E.user_dir ++ cstr name) = some src)
    (hb : (failing (fails st.names.length) src).bad = true) (rest : Bytes) (e : Bool) (h : List (Ev Role)) :
    BadDownload E fails act
      ⟨st, frame E.na.aead E.server_rx n1 (i32Enc NEW_ACTION) ++
        (frame E.na.aead E.server_rx n2 (i32Enc READ_FROM_FILESYSTEM) ++
          (frame E.na.aead E.server_rx n3 (name ++ [0]) ++ rest)), e, h, []⟩ := by
  have hs := ServerEnv.name_short hl
  obtain ⟨st1, buf, hfs, hnames, htake⟩ := ServerEnv.runs_takeName (E := E)
    { st with locals := st.locals + 2 } rest e (h ++ E.requestRcvs act n1 n2 READ_FROM_FILESYSTEM) act h3 hs
  refine ⟨_, _, buf, _, src, ServerEnv.asks_request act h1 h2 (by decide) (by decide) (by decide) st _ e h,
    htake, rfl, ?_⟩
  rw [unwrap_received _ _ _ hs hl]
  simp only [cstr_blit_nul, hfs, hnames]
  exact ⟨trivial, ho, hb⟩

/-- The download handler behind the name. -/
def afterName (E : ServerEnv) (openIn : Bytes → Server (Option Source)) (act : Nat)
    (x : Bytes × SessionEncWrapper) : Server Int := do
  if x.2.corrupted then return 3
  else
    let u := x.2.unwrap E.na.aead E.server_rx PRE_EXT_FILE_NAME_LEN x.1 0
    if u.ret ≠ 0 then return 2
    else
      match ← openIn (cstr u.decrypted_data) with
      | none => return 1
      | some src => E.sendFile act src

theorem rffsVia_eq (openIn : Bytes → Server (Option Source)) :
    E.rffsVia openIn act = E.takeName act >>= afterName E openIn act := by
  rw [ServerEnv.takeName, LawfulMonad.bind_assoc]
  refine congrArg (E.freshNonce >>= ·) (funext fun _ => ?_)
  rw [LawfulMonad.bind_assoc]
  refine congrArg (E.uninit >>= ·) (funext fun buf => ?_)
  rw [LawfulMonad.bind_assoc]
  exact congrArg (ofSock _ >>= ·) (funext fun wrap => rfl)

theorem straight_takeName : Straight (E.takeName act) := by
  have hS := ServerEnv.straight_parts
  refine hS.bind hS.freshNonce fun _ => ?_
  refine hS.bind hS.uninit fun _ => ?_
  exact hS.bind (closed_ofSock hS.toClosed _) fun _ => hS.pure _

variable {fails : Nat → Option Nat}

/-- Behind the name all is well unless the file is there and fails. -/
theorem halts_afterName_iff {x : Bytes × SessionEncWrapper} (he : w.eof = true) :
    Halts (afterName E (E.openInOn fails) act x) w ↔
      (x.2.corrupted = false →
        (x.2.unwrap E.na.aead E.server_rx PRE_EXT_FILE_NAME_LEN x.1 0).ret = 0 → ∀ src,
        w.st.fs.openRead E.cwd (E.user_dir ++
          cstr (x.2.unwrap E.na.aead E.server_rx PRE_EXT_FILE_NAME_LEN x.1 0).decrypted_data) = some src →
        (failing (fails w.st.names.length) src).bad = false) := by
  have hret : ∀ (r : Int) (w : World FsOperator Role), Halts (pure r : Server Int) w :=
    fun r w => ⟨r, w, (runs_pure _ _ _ _).mpr ⟨rfl, rfl⟩⟩
  unfold afterName
  by_cases hc : x.2.corrupted = true
  · simp [hc, hret]
  by_cases hu : (x.2.unwrap E.na.aead E.server_rx PRE_EXT_FILE_NAME_LEN x.1 0).ret = 0
  · simp only [hc, hu, ne_eq, not_true_eq_false, if_false, Bool.false_eq_true]
    let name := cstr (x.2.unwrap E.na.aead E.server_rx PRE_EXT_FILE_NAME_LEN x.1 0).decrypted_data
    obtain ⟨w1, he1, hopen⟩ : ∃ w1, w1.eof = true ∧ Runs (E.openInOn fails name) w
        ((w.st.fs.openRead E.cwd (E.user_dir ++ name)).map (failing (fails w.st.names.length))) w1 :=
      ⟨{ w with st := { w.st with names := w.st.names ++ [name] } }, he,
        (runs_modifyGet _ _ _ _).mpr ⟨rfl, rfl⟩⟩
    cases hs : w.st.fs.openRead E.cwd (E.user_dir ++ name) with
    | none =>
      rw [hs] at hopen
      constructor
      · intro _ _ _ src hsrc
        cases hsrc
      · intro _
        exact hopen.halts_bind (hret _ _)
    | some src =>
      rw [hs] at hopen
      constructor
      · intro h _ _ src' hsrc
        cases hsrc
        exact (halts_sendFile_iff he1).mp (h.of_bind hopen)
      · intro h
        refine hopen.halts_bind ?_
        exact (halts_sendFile_iff he1).mpr (h trivial trivial src rfl)
  · simp [hc, hu, hret]

theorem halts_dispatch {intent : Int} {w0 : World FsOperator Role} (hi : E.Asks act intent w0 w)
    (he : w.eof = true) (hbad : ¬ BadDownload E fails act w0) :
    Halts (E.dispatchVia (E.openInOn fails) act intent) w := by
  have hS := ServerEnv.straight_parts
  have hact : ∀ {β : Type} (f : FsOperator → β × FsOperator), Straight (modifyGet f : Server β) :=
    fun _ _ => trivial
  have hret : ∀ {w : World FsOperator Role} (x : Except Errno Unit),
      Halts (pure x : Server (Except Errno Unit)) w :=
    fun x => ⟨x, _, (runs_pure _ _ _ _).mpr ⟨rfl, rfl⟩⟩
  unfold ServerEnv.dispatchVia
  split
  · rename_i hr
    subst hr
    refine Halts.bind ?_ fun _ _ _ => hret _
    rw [rffsVia_eq]
    refine (straight_takeName.halts he).bind fun x w2 h2 => ?_
    rw [halts_afterName_iff (h2.eof.trans he)]
    intro hc hu src hs
    by_contra hb
    exact hbad ⟨w, w2, x.1, x.2, src, hi, h2, hc, hu, hs, by simpa using hb⟩
  split
  · exact (halts_wtfsHandlerServer he).bind fun _ _ _ => hret _
  split
  · exact ((hS.lffsHandlerServer (hact _) act).halts he).bind fun _ _ _ => hret _
  split
  · exact ((hS.dffsHandlerServer (fun _ => hact _) act).halts he).bind fun _ _ _ => hret _
  · exact hret _

theorem halts_serveRound (he : w.eof = true) (hbad : ¬ BadDownload E fails act w) :
    Halts (E.serveRoundVia (E.openInOn fails) act) w := by
  have hS := ServerEnv.straight_parts
  obtain ⟨r, w1, h1⟩ := (hS.receiveNoticeOfNewAction (E := E) act).halts he
  by_cases hr : r = 0
  · subst hr
    have he1 := h1.eof.trans he
    obtain ⟨intent, w2, h2⟩ := (hS.readIntent (E := E) act).halts he1
    by_cases hi : intent = INVALID_READ_INTENT
    · subst hi
      exact ⟨_, _, ServerEnv.runs_serveRoundVia.mpr (.inr (.inl ⟨w1, h1, h2, rfl⟩))⟩
    · have hask : E.Asks act intent w w2 := ⟨hi, w1, h1, h2⟩
      obtain ⟨y, w3, h3⟩ := halts_dispatch hask (h2.eof.trans he1) hbad
      exact ⟨_, _, ServerEnv.runs_serveRoundVia.mpr (.inr (.inr ⟨intent, w2, y, hask, h3, rfl⟩))⟩
  · exact ⟨_, _, ServerEnv.runs_serveRoundVia.mpr (.inl ⟨r, h1, hr, rfl⟩)⟩

/-- A bad download is never left. -/
theorem not_halts_of_badDownload (he : w.eof = true) (hbad : BadDownload E fails act w) :
    ¬ Halts (E.serveRoundVia (E.openInOn fails) act) w := by
  rintro ⟨x, w', h⟩
  obtain ⟨w1, w2, buf, wrap, src, hask, htake, hc, hu, hs, hb⟩ := hbad
  have he2 : w2.eof = true := by
    obtain ⟨-, w0, h0, h1⟩ := hask
    exact htake.eof.trans (h1.eof.trans (h0.eof.trans he))
  obtain ⟨y, hd, -⟩ := hask.runs_round.mp h
  have hd' : Halts (E.rffsVia (E.openInOn fails) act) w1 := by
    simp only [ServerEnv.dispatchVia, if_true, runs_bind] at hd
    obtain ⟨r, w3, hr, -⟩ := hd
    exact ⟨r, w3, hr⟩
  rw [rffsVia_eq] at hd'
  have hb' := (halts_afterName_iff he2).mp (hd'.of_bind htake) hc hu src hs
  rw [hb'] at hb
  cases hb

theorem halts_session_iff (he : w.eof = true) :
    Halts (E.sessionVia (E.openInOn fails)) w ↔
      ∀ act w', E.Serves (E.openInOn fails) w act w' → ¬ BadDownload E fails act w' := by
  have hS := ServerEnv.straight_parts
  have hmake : Straight E.makeUserDir := fun _ => trivial
  obtain ⟨x, w1, h1⟩ := hmake.halts he
  have he1 := h1.eof.trans he
  unfold ServerEnv.sessionVia
  constructor
  · rintro hh act w' ⟨w1', w2, h1', h2, hrounds⟩ hbad
    obtain ⟨rfl, rfl⟩ := h1.unique h1'
    have hl : Halts (loop (E.serveRoundVia (E.openInOn fails)) 0) w2 := (hh.of_bind h1).of_bind h2
    have he' : w'.eof = true := hrounds.eof.trans (h2.eof.trans he1)
    obtain ⟨b, w3, h3⟩ := hrounds.halts hl
    obtain ⟨y, w4, h4, -⟩ := (runs_loop _ _ _ _ _).mp h3
    exact not_halts_of_badDownload he' hbad ⟨y, w4, h4⟩
  · intro hall
    refine h1.halts_bind ?_
    cases x with
    | error e => exact ⟨_, _, (runs_pure _ _ _ _).mpr ⟨rfl, rfl⟩⟩
    | ok u =>
      refine (hS.freshNonce.halts he1).bind fun _ w2 h2 => ?_
      -- every round reads its notice off the stream
      refine halts_loop (I := fun act w' => w'.eof = true ∧
        Rounds (E.serveRoundVia (E.openInOn fails)) 0 w2 act w') (fun _ w' => w'.inp.length) ?_ ?_
        ⟨h2.eof.trans he1, .refl⟩
      · exact fun act w' hI => halts_serveRound hI.1 (hall act w' ⟨w1, w2, h1, h2, hI.2⟩)
      · intro act w' act' w'' hI hr
        refine ⟨⟨hr.eof.trans hI.1, hI.2.snoc hr⟩, ?_⟩
        rcases ServerEnv.runs_serveRoundVia.mp hr with ⟨r, -, -, hx⟩ | ⟨v, hv, hv', -⟩ |
          ⟨intent, v, y, ⟨-, v0, hv0, hv1⟩, hd, -⟩
        · cases hx
        · exact Nat.lt_of_le_of_lt hv'.inp_le (notice_consumes hv)
        · exact Nat.lt_of_le_of_lt (hd.inp_le.trans hv1.inp_le) (notice_consumes hv0)

end

/-- Logged in, it ends when the session does. -/
theorem halts_handleConn_iff {S : ServerHost} {w w1 : World WorkerState ConnRole} {l : LoggedIn}
    (hl : Runs S.logIn w (.inr l) w1) :
    Halts S.handleConn w ↔
      Halts ((S.env l).sessionVia ((S.env l).openInOn S.fails)) (w1.part opPart Role) := by
  constructor
  · intro hh
    obtain ⟨b, w2, hs⟩ := hh.of_bind hl
    obtain ⟨e, w3, h3, -⟩ := (runs_bind _ _ _ _ _).mp hs
    exact halts_zoom.mp ⟨e, w3, h3⟩
  · intro hs
    refine hl.halts_bind (Halts.bind (halts_zoom.mpr hs) fun e w2 h2 => ?_)
    exact ⟨_, _, (runs_pure _ _ _ _).mpr ⟨rfl, rfl⟩⟩

/-- `handle_conn` ends on a finite stream, whatever its sends do, exactly when
it gets to no download of a file that opens and fails. -/
theorem handle_conn_ends_iff (S : ServerHost) {w : World WorkerState ConnRole} (he : w.eof = true) :
    Halts S.handleConn w ↔
      ∀ l w1, Runs S.logIn w (.inr l) w1 → ∀ act w',
        (S.env l).Serves ((S.env l).openInOn S.fails) (w1.part opPart Role) act w' →
        ¬ BadDownload (S.env l) S.fails act w' := by
  constructor
  · intro hh l w1 hl
    have he1 : (w1.part opPart Role).eof = true := hl.eof.trans he
    exact (halts_session_iff he1).mp ((halts_handleConn_iff hl).mp hh)
  · intro hall
    obtain ⟨x, w1, h1⟩ := S.straight_logIn.halts he
    cases x with
    | inl e => exact h1.halts_bind ⟨_, _, (runs_pure _ _ _ _).mpr ⟨rfl, rfl⟩⟩
    | inr l =>
      have he1 : (w1.part opPart Role).eof = true := h1.eof.trans he
      exact (halts_handleConn_iff h1).mpr ((halts_session_iff he1).mpr (hall l w1 h1))

/-- The server alice connects to. -/
def aliceHost : ServerHost :=
  ⟨plainSodium, quietHost, [], aliceDb, List.replicate 32 0, fun _ => some ([1], [2]), fun _ => none⟩

def aliceWorker : WorkerState := ⟨⟨[], [], 0, 0⟩, aliceDir⟩

/-- Her public key, name and password, and what she sends then. -/
def aliceStream (rest : Bytes) : Bytes :=
  List.replicate 32 0 ++ (frame plainAead [1] (u64Enc 1) (alice ++ [0]) ++
    (frame plainAead [1] (u64Enc 2) [112, 119] ++ rest))

theorem alice_logs_in (rest : Bytes) :
    ∃ creds h, Runs aliceHost.logIn ⟨aliceWorker, aliceStream rest, true, [], []⟩
      (.inr ⟨[1], [2], alice⟩) ⟨⟨creds, aliceDir⟩, rest, true, h, []⟩ :=
  aliceHost.runs_logIn (List.length_replicate ..) rfl (u64Enc_length 1) (u64Enc_length 2)
    (by decide : (alice ++ [0]).length ≤ FILE_ENCRYPTED_CHUNK_SIZE) (by decide) (by decide) aliceWorker rest true []

/-- A notice, an intent and what follows. -/
def aliceRequest (intention : Int) (rest : List Bytes) : Bytes :=
  frame plainAead [1] (u64Enc 3) (i32Enc NEW_ACTION) ++ frame plainAead [1] (u64Enc 4) (i32Enc intention) ++
    rest.flatten

/-- She uploads `"a"`, lists, and downloads and deletes `"a.enc"`. -/
def aliceRequests : Bytes :=
  let enc := frame plainAead [1] (u64Enc 5)
  aliceRequest WRITE_TO_FILESYSTEM [enc [1], enc [97, 0], enc (List.replicate STREAM_HEADERBYTES 7),
      enc (List.replicate PWHASH_SALTBYTES 7), enc (i32Enc END_CHUNK), blob (List.replicate STREAM_ABYTES 9)] ++
    (aliceRequest LIST_FILES [] ++ (aliceRequest READ_FROM_FILESYSTEM [enc ([97] ++ ext ++ [0])] ++
      aliceRequest DELETE_FILE [enc ([97] ++ ext ++ [0])]))

/-- All of it is served. -/
theorem alice_served :
    ∃ w', Runs aliceHost.handleConn ⟨aliceWorker, aliceStream aliceRequests, true, [], []⟩ .served w' ∧
      w'.st.op.names = [[97] ++ ext, [97] ++ ext, [97] ++ ext] ∧
      w'.st.op.fs.lookup [mefS, alice, [97] ++ ext] = none := by
  have hrun : (exec 6 aliceHost.handleConn ⟨aliceWorker, aliceStream aliceRequests, true, [], []⟩).map
      (fun y => (y.1, y.2.st.op.names, y.2.st.op.fs.lookup [mefS, alice, [97] ++ ext])) =
        some (.served, [[97] ++ ext, [97] ++ ext, [97] ++ ext], none) := by decide +kernel
  obtain ⟨⟨x, w'⟩, hx, hy⟩ := Option.map_eq_some_iff.mp hrun
  simp only [Prod.mk.injEq] at hy
  obtain ⟨rfl, hnames, hgone⟩ := hy
  exact ⟨w', ⟨6, hx⟩, hnames, hgone⟩

/-- It ends, so none of her requests is such a download. -/
theorem handle_conn_ends_iff_alice :
    Halts aliceHost.handleConn ⟨aliceWorker, aliceStream aliceRequests, true, [], []⟩ ∧
      ∀ l w1, Runs aliceHost.logIn ⟨aliceWorker, aliceStream aliceRequests, true, [], []⟩ (.inr l) w1 →
        ∀ act w', (aliceHost.env l).Serves ((aliceHost.env l).openInOn aliceHost.fails) (w1.part opPart Role) act w' →
          ¬ BadDownload (aliceHost.env l) aliceHost.fails act w' := by
  obtain ⟨w', hr, -⟩ := alice_served
  have hhalts : Halts aliceHost.handleConn ⟨aliceWorker, aliceStream aliceRequests, true, [], []⟩ := ⟨_, w', hr⟩
  exact ⟨hhalts, (handle_conn_ends_iff aliceHost rfl).mp hhalts⟩

/-- A request to download `""`, her directory. -/
def askForDir : Bytes :=
  frame plainAead [1] (u64Enc 3) (i32Enc NEW_ACTION) ++
    (frame plainAead [1] (u64Enc 4) (i32Enc READ_FROM_FILESYSTEM) ++
      (frame plainAead [1] (u64Enc 5) ([] ++ [0]) ++ []))

theorem download_of_directory_never_ends :
    ¬ Halts aliceHost.handleConn ⟨aliceWorker, aliceStream askForDir, true, [], []⟩ := by
  obtain ⟨creds, h, hl⟩ := alice_logs_in askForDir
  rw [halts_handleConn_iff hl, halts_session_iff rfl]
  intro hall
  have hmake : aliceDir.fs.createDirectories aliceServer.cwd (splitSlash aliceServer.user_dir) =
      .ok aliceDir.fs := rfl
  let st : FsOperator := { aliceDir with nonce := fit AEAD_NPUBBYTES [], draws := 1 }
  have hopen : st.fs.openRead aliceServer.cwd (aliceServer.user_dir ++ cstr []) = some ⟨[], true⟩ := by
    decide +kernel
  have hbad : BadDownload aliceServer (fun _ => none) 0 ⟨st, askForDir, true, [], []⟩ :=
    badDownload_request _ 0 (u64Enc_length 3) (u64Enc_length 4) (u64Enc_length 5) (by decide) hopen rfl [] true []
  exact hall 0 _ (ServerEnv.serves_first (E := aliceServer) hmake askForDir true []) hbad

end Mefsc.L4
