import Mathlib.Data.List.Infix
import Mefsc.Core.Trace
import Mefsc.L4App.Intake
import Mefsc.L4App.Isolation
import Mefsc.L4App.Refinement
import Mefsc.L4App.Roles

/-!
# Control messages on a hostile network

The reader takes the nonce of a frame from the frame and expects none, so a frame
that was genuine once is genuine again: a recorded action that arrives twice is
executed twice (`replayed_delete`).

What does hold of the control messages the server accepts (`controls_in_order`),
whatever arrives: their frames lie one behind the other in the arriving bytes, and
each is one the client made, byte for byte. If the bytes arrive as the client sent
them, cut off anywhere, and the actions are in step, the server accepts the first
of the messages the client encrypted.
-/
namespace Mefsc.L4

open L1 L1.SessionEncWrapper L2 L3
open Proc hiding ret recv send act iter bind bind_assoc
open Net hiding MutualWait

/-- Nonces and plaintexts of the control messages the server has accepted. -/
def accepted (E : ServerEnv) (h : List (Ev Role)) : List (Bytes × Bytes) :=
  (heard E.na.aead E.server_rx .length 0 h).map Prod.snd

/-- Those of the control messages the client has encrypted. -/
def encrypted (C : ClientEnv) (h : List (Ev Role)) : List (Bytes × Bytes) :=
  (spoken C.na.aead C.client_tx 0 h).map Prod.snd

/-! ## Whatever arrives -/

/-- The frames of `ms` lie in the stream, one behind the other. -/
inductive InOrder (A : Aead) (K : Bytes) : Bytes → List (Bytes × Bytes) → Prop where
  | nil (s : Bytes) : InOrder A K s []
  | cons (g n m s : Bytes) {ms : List (Bytes × Bytes)} (h : InOrder A K s ms) :
    InOrder A K (g ++ (frame A K n m ++ s)) ((n, m) :: ms)

/-- No part of the stream verifies under the key but ciphertexts from `made`. -/
def Genuine (A : Aead) (K : Bytes) (made : List (Bytes × Bytes)) (s : Bytes) : Prop :=
  ∀ y x z w m, s = y ++ x ++ z → takeFrame x = some (w, []) → Verified A K w m →
    (w.nonce, m) ∈ made ∧ w.session_encrypted_data = A.encrypt K w.nonce m

section
variable {A : Aead} {K : Bytes} {made : List (Bytes × Bytes)}

theorem InOrder.skip {s : Bytes} {ms : List (Bytes × Bytes)} (h : InOrder A K s ms) (g : Bytes) :
    InOrder A K (g ++ s) ms := by
  cases h with
  | nil => exact .nil _
  | cons g' n m s h =>
    rw [← List.append_assoc]
    exact .cons _ n m s h

theorem Genuine.drop {g s : Bytes} (h : Genuine A K made (g ++ s)) : Genuine A K made s := by
  intro y x z w m hs
  refine h (g ++ y) x z w m ?_
  rw [hs]
  simp

theorem Genuine.take {s s' : Bytes} (h : Genuine A K made s) (hs : s' <+: s) : Genuine A K made s' := by
  obtain ⟨t, rfl⟩ := hs
  intro y x z w m hs
  refine h y x (z ++ t) w m ?_
  rw [hs]
  simp

/-- The bytes of a whole frame. -/
theorem takeFrame_eq {x : Bytes} {w : SessionEncWrapper} (h : takeFrame x = some (w, []))
    (hw : w.corrupted = false) :
    x = u64Enc w.session_encrypted_data.length ++ w.nonce ++ w.session_encrypted_data := by
  have htaken := takeFrame_taken h hw
  unfold takeFrame at h
  split at h
  · cases h
  rename_i h8
  split at h
  · simp only [Option.some.injEq, Prod.mk.injEq] at h
    obtain ⟨rfl, -⟩ := h
    cases hw
  split at h
  · cases h
  split at h
  · cases h
  simp only [Option.some.injEq, Prod.mk.injEq] at h
  obtain ⟨rfl, hrest⟩ := h
  have hlen : u64Enc (leDec (x.take 8)) = x.take 8 := by
    have := leEnc_leDec (x.take 8)
    rwa [List.length_take_of_le (Nat.le_of_not_lt h8)] at this
  have hdata : ((x.drop 8).drop AEAD_NPUBBYTES).take (leDec (x.take 8)) = (x.drop 8).drop AEAD_NPUBBYTES := by
    have := List.take_append_drop (leDec (x.take 8)) ((x.drop 8).drop AEAD_NPUBBYTES)
    rwa [hrest, List.append_nil] at this
  have hl := htaken.length
  simp only at hl ⊢
  rw [hl, hlen, hdata, List.append_assoc, List.take_append_drop, List.take_append_drop]

/-- What is unwrapped in a genuine stream is a frame of `made`. -/
theorem unwrapped_genuine {cap : Nat} {x s : Bytes} {e : Bytes × Bytes} (hg : Genuine A K made (x ++ s))
    (h : unwrapped A K cap x = some e) : e ∈ made ∧ x = frame A K e.1 e.2 := by
  unfold unwrapped at h
  split at h
  · rename_i w ht
    simp only at h
    split at h
    · rename_i hret
      cases hc : w.corrupted with
      | true => exact absurd hret (unwrap_corrupted A K hc cap [] 0)
      | false =>
        obtain rfl := Option.some.inj h
        have hu : Unwraps A K cap [] 0 w (w.unwrap A K cap [] 0) := (takeFrame_taken ht hc).unwraps cap [] 0
        generalize w.unwrap A K cap [] 0 = u at hu hret h
        cases hu with
        | stub => cases hret
        | long => cases hret
        | forged => cases hret
        | ok m hv hm =>
          obtain ⟨hmade, hdata⟩ := hg [] x s w m rfl ht hv
          have hplain : (blit m []).take m.length = m := by simp [blit]
          have hx := takeFrame_eq ht hc
          rw [hdata, ← frame] at hx
          simp only [hplain]
          exact ⟨hmade, hx⟩
    · cases h
  · cases h

/-- The bytes of a frame that have been read. -/
def begun : Awaiting → Bytes
  | .length => []
  | .nonce _ len => len
  | .data _ len nonce => len ++ nonce

theorem heard_inOrder (s : Awaiting) (o : Nat) (es : List (Ev Role)) (hg : Genuine A K made (begun s ++ rcvd es)) :
    InOrder A K (begun s ++ rcvd es) ((heard A K s o es).map Prod.snd) ∧ ∀ e ∈ heard A K s o es, e.2 ∈ made := by
  fun_induction heard A K s o es with
  | case1 => exact ⟨.nil _, by simp⟩
  | case2 s o r b es ih => exact ih hg
  | case3 s o r es ih =>
    -- the stream has ended within a frame
    obtain ⟨h1, h2⟩ := ih hg.drop
    exact ⟨h1.skip _, h2⟩
  | case4 o r b es h ih =>
    simp only [begun, rcvd, List.nil_append] at hg ih ⊢
    obtain ⟨h1, h2⟩ := ih hg.drop
    exact ⟨h1.skip _, h2⟩
  | case5 o r b es cap h hbig ih =>
    simp only [begun, rcvd, List.nil_append] at hg ih ⊢
    obtain ⟨h1, h2⟩ := ih hg.drop
    exact ⟨h1.skip _, h2⟩
  | case6 o r b es cap h hbig ih => exact ih hg
  | case7 cap len o r b es ih =>
    simp only [begun, rcvd] at hg ih ⊢
    rw [List.append_assoc] at ih
    exact ih hg
  | case8 cap len nonce o r b es ih =>
    simp only [begun, rcvd] at hg ih ⊢
    rw [← List.append_assoc] at hg ⊢
    obtain ⟨h1, h2⟩ := ih hg.drop
    cases hu : unwrapped A K cap (len ++ nonce ++ b) with
    | none => exact ⟨h1.skip _, by simpa using h2⟩
    | some e =>
      obtain ⟨hmade, hx⟩ := unwrapped_genuine hg hu
      rw [hx]
      refine ⟨?_, ?_⟩
      · simpa using InOrder.cons [] e.1 e.2 _ h1
      · intro x hxm
        simp only [Option.toList_some, List.map_cons, List.map_nil, List.singleton_append, List.mem_cons] at hxm
        rcases hxm with rfl | hxm
        · exact hmade
        · exact h2 x hxm

end

theorem takeFrame_append {x rest : Bytes} {w : SessionEncWrapper} (h : takeFrame x = some (w, rest)) (z : Bytes) :
    takeFrame (x ++ z) = some (w, rest ++ z) := by
  unfold takeFrame at h ⊢
  split at h
  · cases h
  rename_i h8
  have h8' : 8 ≤ x.length := Nat.le_of_not_lt h8
  rw [if_neg (by rw [List.length_append]; omega), List.take_append_of_le_length h8',
    List.drop_append_of_le_length h8']
  split at h
  · rename_i hbig
    simp only [Option.some.injEq, Prod.mk.injEq] at h
    obtain ⟨rfl, rfl⟩ := h
    rw [if_pos hbig]
  rename_i hbig
  split at h
  · cases h
  rename_i hn
  split at h
  · cases h
  rename_i hd
  simp only [Option.some.injEq, Prod.mk.injEq] at h
  obtain ⟨rfl, rfl⟩ := h
  have hn' := Nat.le_of_not_lt hn
  have hd' := Nat.le_of_not_lt hd
  rw [if_neg hbig, if_neg (by rw [List.length_append]; omega), List.take_append_of_le_length hn',
    List.drop_append_of_le_length hn', if_neg (by rw [List.length_append]; omega),
    List.take_append_of_le_length hd', List.drop_append_of_le_length hd']

/-- What a frame at the front of the stream verifies to was made. -/
def onlyMade (A : Aead) (K : Bytes) (made : List (Bytes × Bytes)) (s : Bytes) : Bool :=
  match takeFrame s with
  | none => true
  | some (w, _) =>
    match A.decrypt K w.nonce w.session_encrypted_data with
    | none => true
    | some m => made.contains (w.nonce, m) && w.session_encrypted_data == A.encrypt K w.nonce m

theorem genuine_of_tails {A : Aead} {K : Bytes} {made : List (Bytes × Bytes)} {s : Bytes}
    (h : s.tails.all (onlyMade A K made) = true) : Genuine A K made s := by
  intro y x z w m hs ht hv
  have hmem : x ++ z ∈ s.tails := (List.mem_tails _ _).mpr ⟨y, by rw [hs, List.append_assoc]⟩
  have hm := List.all_eq_true.mp h _ hmem
  unfold Verified at hv
  simp only [onlyMade, takeFrame_append ht, hv, Bool.and_eq_true, List.contains_iff_mem, beq_iff_eq] at hm
  exact hm

/-! ## What the client sent, as it sent it -/

/-- The server has heard the first of what the client said. -/
def Heeded (C : ClientEnv) (t : Session) : Prop :=
  heard C.na.aead C.client_tx .length 0 t.r.hist <+: spoken C.na.aead C.client_tx 0 t.l.hist

def AlwaysHeeded (C : ClientEnv) (s : Session) : Prop := ∀ t, Reach s t → Heeded C t

section
variable {C : ClientEnv} {s t u : Session}

theorem Heeds.heeded (h : Heeds C.na.aead C.client_tx t.l.hist t.r.hist) : Heeded C t := by
  obtain ⟨out, hout, h⟩ := h 0
  have h := h []
  rw [List.append_nil, heard, List.append_nil] at h
  unfold Heeded
  rwa [h]

theorem Heeded.of_run {i j : Nat} (h : Run i j s t) (hd : s.Delivers) (ht : Heeded C t) : Heeded C s := by
  obtain ⟨h1, h2⟩ := h.hist_grows
  refine heard_begins h1 h2 ?_ ht
  exact ((List.prefix_append _ s.r.inp).trans hd.r.begins).length_le

theorem heeded_of_reach (hd : s.Delivers) (h : Reach s u) (hu : AlwaysHeeded C u) : AlwaysHeeded C s := by
  rintro t ⟨i, j, ht⟩
  obtain ⟨i', j', h⟩ := h
  obtain ⟨v, h1, h2⟩ := ht.join h
  exact Heeded.of_run h1 (ht.delivers hd) (hu v ⟨_, _, h2⟩)

theorem heeded_of_unbounded (hd : s.Delivers)
    (h : ∀ n, ∃ i j u, n ≤ i ∧ n ≤ j ∧ Run i j s u ∧ Heeded C u) : AlwaysHeeded C s := by
  rintro t ⟨i, j, ht⟩
  obtain ⟨i', j', u, hi, hj, hu, ha⟩ := h (max i j)
  obtain ⟨v, h1, h2⟩ := ht.join hu
  rw [show i - i' = 0 by omega, show j - j' = 0 by omega] at h2
  cases h2
  exact Heeded.of_run h1 (ht.delivers hd) ha

theorem AtEnd.heeded (h : AtEnd t) (hh : Heeds C.na.aead C.client_tx t.l.hist t.r.hist) : AlwaysHeeded C t := by
  rintro u ⟨i, j, hu⟩
  rcases h with hw | ⟨hd, hi⟩ | ⟨hd, -⟩
  · obtain ⟨-, -, rfl⟩ := (stuck_of_mutualWait hw).run_eq hu
    exact Heeds.heeded hh
  · -- the server finds the stream ended
    obtain ⟨hl, evs, hr, hno⟩ := hu.quiet_l hd hi
    obtain ⟨out, hout, hh⟩ := hh 0
    unfold Heeded
    rw [hl, hr, hh, heard_nothing hno, List.append_nil]
    exact hout
  · have hhere := Heeds.heeded hh
    obtain ⟨evs, hl⟩ := hu.hist_grows.1
    unfold Heeded at hhere ⊢
    rw [hu.quiet_r hd, ← hl, spoken_append]
    exact hhere.trans (List.prefix_append _ _)

theorem Attended.heeds {hl hr : List (Ev Role)} (h : Attended C hl hr t) (hH : Hears C.na.aead C.client_tx hl hr) :
    Heeds C.na.aead C.client_tx t.l.hist t.r.hist := by
  obtain ⟨evl, evr, h1, h2, hh⟩ := h
  rw [h1, h2]
  exact hH.append_heeds hh

end

section
variable {C : ClientEnv} {E : ServerEnv} (hL : Linked C E)

include hL

theorem idle_heeded (as : List UserAction) (k : Nat) (cst : ClientState) (sst : FsOperator)
    (hl hr : List (Ev Role)) (hH : Hears C.na.aead C.client_tx hl hr)
    (hd : (idle C E k k as cst sst hl hr).Delivers) (hA : AllInStep C E as (idle C E k k as cst sst hl hr)) :
    AlwaysHeeded C (idle C E k k as cst sst hl hr) := by
  induction as generalizing k cst sst hl hr with
  | nil =>
    obtain ⟨cst', sst', evl, evr, -, -, -, hh, h⟩ := end_session hL k k cst sst hl hr
    exact heeded_of_reach hd h (AtEnd.heeded (.inr (.inr ⟨rfl, rfl⟩)) (hH.append hh).heeds)
  | cons a as ih =>
    have hI := hA k k a as cst sst hl hr (List.suffix_refl _) (Reach.refl _)
    cases hI.goesOn hL as k hl hr with
    | next cst' sst' evl evr _ hh h =>
      obtain ⟨i, j, hrun⟩ := id h
      exact heeded_of_reach hd h
        (ih (k + 1) cst' sst' _ _ (hH.append hh) (hrun.delivers hd) (hA.of_reach (List.suffix_cons a as) h))
    | ends t h ht _ hh => exact heeded_of_reach hd h (ht.heeded (hh.heeds hH))
    | endless h =>
      refine heeded_of_unbounded hd fun n => ?_
      obtain ⟨i, j, u, hi, hj, hu, -, hh⟩ := h n
      exact ⟨i, j, u, hi, hj, hu, Heeds.heeded (hh.heeds hH)⟩

theorem opening_heeded (first : UserAction) (more : List UserAction) (cst : ClientState) (sst : FsOperator)
    (hA : AllInStep C E (first :: more) (opening C E first more cst sst)) :
    AlwaysHeeded C (opening C E first more cst sst) := by
  have hd : (opening C E first more cst sst).Delivers :=
    ⟨⟨List.prefix_rfl, fun _ => rfl⟩, ⟨List.prefix_rfl, fun _ => rfl⟩⟩
  cases hdir : sst.fs.createDirectories E.cwd (splitSlash E.user_dir) with
  | error er =>
    refine heeded_of_reach hd (opening_threw first more cst hdir) (AtEnd.heeded (.inr (.inr ⟨rfl, rfl⟩)) ?_)
    exact (hears_quiet rfl rfl).heeds
  | ok fs =>
    obtain ⟨sst', -, h⟩ := opening_idle (C := C) first more cst hdir
    obtain ⟨i, j, hrun⟩ := id h
    exact heeded_of_reach hd h (idle_heeded hL _ _ _ _ _ _ (hears_quiet rfl rfl) (hrun.delivers hd)
      (hA.of_reach (List.suffix_refl _) h))

end

/-! ## The control messages that are accepted -/

/-- The frames of the messages that the server accepts lie in the arriving bytes, in
the order it accepts them, and each is one that the client made. If the client's
bytes arrive as they were sent, in a session in step, these messages are the first
that the client encrypted. -/
theorem controls_in_order {C : ClientEnv} {E : ServerEnv} (hL : Linked C E) :
    (∀ (made : List (Bytes × Bytes)) (w : World FsOperator Role), w.hist = [] →
      Genuine E.na.aead E.server_rx made w.inp → ∀ n o q v, Goes n E.session w o q v →
        rcvd v.hist <+: w.inp ∧ InOrder E.na.aead E.server_rx (rcvd v.hist) (accepted E v.hist) ∧
          ∀ x ∈ accepted E v.hist, x ∈ made) ∧
      ∀ (first : UserAction) (more : List UserAction) (cst : ClientState) (sst : FsOperator),
        AllInStep C E (first :: more) (opening C E first more cst sst) →
          ∀ t, Reach (opening C E first more cst sst) t → accepted E t.r.hist <+: encrypted C t.l.hist := by
  refine ⟨?_, ?_⟩
  · intro made w hw hg n o q v hgo
    have hb := hgo.bytes
    rw [hw, rcvd, List.nil_append] at hb
    have hread : rcvd v.hist <+: w.inp := (List.prefix_append _ _).trans hb
    obtain ⟨h1, h2⟩ := heard_inOrder .length 0 v.hist (hg.take hread)
    refine ⟨hread, h1, fun x hx => ?_⟩
    obtain ⟨e, he, rfl⟩ := List.mem_map.mp hx
    exact h2 e he
  · intro first more cst sst hA t ht
    have h := opening_heeded hL first more cst sst hA t ht
    unfold Heeded at h
    unfold accepted encrypted
    rw [hL.na, hL.up]
    exact h.map Prod.snd

/-- A request to delete that arrives twice, and a session of an upload, a delete and
`CONFUSION`. -/
theorem controls_in_order_alice :
    (∃ n o q v, Goes n aliceServer.session
        ⟨aliceDir, deleteFrames [97] ++ deleteFrames [97], true, [], []⟩ o q v ∧
      (accepted aliceServer v.hist).length = 6 ∧
      InOrder plainAead [1] (rcvd v.hist) (accepted aliceServer v.hist)) ∧
    ∀ t, Reach (opening aliceClient aliceServer ⟨WRITE_TO_FILESYSTEM, [97]⟩
        [⟨DELETE_FILE, [97] ++ ext⟩, ⟨CONFUSION, []⟩] aliceHome aliceDir) t →
      accepted aliceServer t.r.hist <+: encrypted aliceClient t.l.hist := by
  obtain ⟨h1, h2⟩ := controls_in_order alice_linked
  refine ⟨?_, h2 _ _ _ _ (alice_allInStep _)⟩
  let w : World FsOperator Role := ⟨aliceDir, deleteFrames [97] ++ deleteFrames [97], true, [], []⟩
  have hg : Genuine aliceServer.na.aead aliceServer.server_rx
      [(u64Enc 1, i32Enc NEW_ACTION), (u64Enc 2, i32Enc DELETE_FILE), (u64Enc 3, [97, 0])] w.inp :=
    genuine_of_tails (by decide +kernel)
  obtain ⟨n, o, q, hgo⟩ := goes_played 100 aliceServer.session w
  have hsix : (accepted aliceServer (played 100 aliceServer.session w).hist).length = 6 := by decide +kernel
  generalize played 100 aliceServer.session w = v at hgo hsix
  obtain ⟨-, hin, -⟩ := h1 _ w rfl hg n o q v hgo
  exact ⟨n, o, q, v, hgo, hsix, hin⟩

/-! ## A delete that is replayed -/

def deleteA : UserAction := ⟨DELETE_FILE, [97] ++ ext⟩

/-- Alice deletes the old `"a"` and uploads a new one. -/
def renewal : Session := opening aliceClient aliceServer deleteA [uploadA] aliceHome aliceOld

/-- Her frames up to the last notice, and once more those of the delete. -/
def replayed (b : Bytes) : Bytes := b.take 416 ++ b.take 110

/-- The server deletes the new one, too. -/
theorem replayed_delete :
    ∃ (t : Session) (n : Nat) (o : List (Role × Bytes)) (q : Proc FsOperator Role ServerEnv.Ended)
      (v : World FsOperator Role), Reach renewal t ∧
      Genuine aliceServer.na.aead aliceServer.server_rx (encrypted aliceClient t.l.hist) (replayed (sent t.l.hist)) ∧
      Goes n aliceServer.session ⟨aliceOld, replayed (sent t.l.hist), false, [], []⟩ o q v ∧
      rcvd t.l.hist <+: sent v.hist ∧
      (t.r.st.fs.lookup [mefS, alice, [97] ++ ext]).isSome ∧ v.st.fs.lookup [mefS, alice, [97] ++ ext] = none ∧
      ¬ accepted aliceServer v.hist <+: encrypted aliceClient t.l.hist := by
  obtain ⟨t, ht, hall⟩ : ∃ t : Session, Reach renewal t ∧
      (replayed (sent t.l.hist)).tails.all (onlyMade plainAead [1] (encrypted aliceClient t.l.hist)) = true ∧
      (∃ v, v = played 500 aliceServer.session ⟨aliceOld, replayed (sent t.l.hist), false, [], []⟩ ∧
        rcvd t.l.hist <+: sent v.hist ∧
        (t.r.st.fs.lookup [mefS, alice, [97] ++ ext]).isSome ∧ v.st.fs.lookup [mefS, alice, [97] ++ ext] = none ∧
        ¬ accepted aliceServer v.hist <+: encrypted aliceClient t.l.hist) :=
    ⟨leftFirst 400 _, reach_leftFirst 400 _, by decide +kernel, _, rfl, by decide +kernel⟩
  obtain ⟨hg, v, hv, h1, h2, h3, h4⟩ := hall
  obtain ⟨n, o, q, hgo⟩ := goes_played 500 aliceServer.session
    (⟨aliceOld, replayed (sent t.l.hist), false, [], []⟩ : World FsOperator Role)
  rw [← hv] at hgo
  exact ⟨t, n, o, q, v, ht, genuine_of_tails hg, hgo, h1, h2, h3, h4⟩

end Mefsc.L4
