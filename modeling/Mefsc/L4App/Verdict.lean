import Mefsc.L1Encoding.FrameLengths
import Mefsc.L3Protocol.ClientConn
import Mefsc.L4App.RoundTrip

/-!
# The login verdict

`send_credentials` (`src/client/client.cpp:50-90`) takes the server's answer with
one `recv` of four bytes and not with `recv_fully`. What that call brings goes over
the -1 in `auth_stat`, so a part of `ACK_FAIL` still reads as -1, but a part of
`ACK_SUC` no longer does: the client goes on, and the rest of the verdict is the
front of the first frame it reads.

* `sendCredentialsOn`: `send_credentials` on a socket. When its `recv` brings
  anything it is the `sendCredentials` of the session (`execSock_sendCredentials`).
* `verdict_read_iff`: what it does for either verdict and every way the bytes come.
-/
namespace Mefsc.L4

open L1 L1.SessionEncWrapper L2 L3
open Proc hiding ret recv send act iter bind

/-- mirrors src/client/client.cpp:50-90 -/
def sendCredentialsOn (C : ClientEnv) (n : Nat) (username : Bytes) (w : SockWorld ClientState) :
    Option (Bool × SockWorld ClientState) :=
  (execSock n (C.offerCredentials username) w).map fun x =>
    let y := x.2.sock.recv 4
    (decide (ClientEnv.authStat y.2.1 ≠ -1), { x.2 with sock := y.2.2 })

/-! ## `auth_stat` -/

theorem authStat_fail (k : Nat) : ClientEnv.authStat ((i32Enc ACK_FAIL).take k) = -1 := by
  have hblit : blit ((i32Enc (-1)).take k) (i32Enc (-1)) = i32Enc (-1) := by
    unfold blit
    rw [List.length_take]
    rcases Nat.le_total k (i32Enc (-1)).length with hk | hk
    · rw [Nat.min_eq_left hk, List.take_append_drop]
    · rw [List.take_of_length_le hk, Nat.min_eq_right hk, List.drop_length, List.append_nil]
  unfold ClientEnv.authStat ACK_FAIL
  rw [hblit]
  exact i32Dec_i32Enc (by decide) (by decide)

theorem authStat_suc {k : Nat} (hk : k ≤ 4) : ClientEnv.authStat ((i32Enc ACK_SUC).take k) ≠ -1 ↔ 0 < k := by
  have hall : ∀ k < 5, (ClientEnv.authStat ((i32Enc ACK_SUC).take k) ≠ -1 ↔ 0 < k) := by decide
  exact hall k (by omega)

/-- What the client makes of the first `k` bytes of a verdict. -/
theorem goes_on_iff {v : Int} (hv : v = ACK_SUC ∨ v = ACK_FAIL) {k : Nat} (hk : k ≤ 4) :
    ClientEnv.authStat ((i32Enc v).take k) ≠ -1 ↔ v = ACK_SUC ∧ 0 < k := by
  rcases hv with rfl | rfl
  · rw [authStat_suc hk]
    simp
  · rw [authStat_fail k]
    simp [ACK_FAIL, ACK_SUC]

/-! ## The login -/

section
variable (C : ClientEnv) (n : Nat) (username : Bytes) (st : ClientState) (s : Sock) (out : Bytes)

theorem execSock_offer :
    ∃ st' out', execSock n (C.offerCredentials username) ⟨st, s, out⟩ = some ((), ⟨st', s, out'⟩) :=
  ⟨_, _, rfl⟩

theorem execSock_sendCredentials (hgot : (s.recv 4).2.1 ≠ []) :
    execSock (n + 1) (C.sendCredentials username (s.recv 4).2.1.length) ⟨st, s, out⟩ =
      sendCredentialsOn C (n + 1) username ⟨st, s, out⟩ := by
  have honce := recvFully_once s n hgot
  rw [← Nat.min_eq_left (recv_length_le s 4)] at honce
  change (recvFully (n + 1) s (min (s.recv 4).2.1.length 4) []).bind _ = _
  rw [honce]
  rfl

variable {s}

/-- For either verdict: what the client does when its `recv` brings `k` bytes. -/
theorem verdict_cases {v : Int} (hv : v = ACK_SUC ∨ v = ACK_FAIL) {rest : Bytes} (hs : s.stream = i32Enc v ++ rest) :
    ∃ k w, k ≤ 4 ∧ (k = 4 ↔ Together s 4) ∧
      sendCredentialsOn C n username ⟨st, s, out⟩ = some (decide (v = ACK_SUC ∧ 0 < k), w) ∧
      w.sock.stream = (i32Enc v).drop k ++ rest := by
  obtain ⟨st', out', hoffer⟩ := execSock_offer C n username st s out
  have happend := recv_append s 4
  have hle := recv_length_le s 4
  have htake : (s.recv 4).2.1 = (i32Enc v).take (s.recv 4).2.1.length := by
    have hfront := congrArg (List.take (s.recv 4).2.1.length) (happend.trans hs)
    rwa [List.take_left', List.take_append_of_le_length (by simpa using hle)] at hfront
    rfl
  have hdrop : (s.recv 4).2.2.stream = (i32Enc v).drop (s.recv 4).2.1.length ++ rest := by
    have hback := congrArg (List.drop (s.recv 4).2.1.length) (happend.trans hs)
    rwa [List.drop_left', List.drop_append_of_le_length (by simpa using hle)] at hback
    rfl
  refine ⟨(s.recv 4).2.1.length, ⟨st', (s.recv 4).2.2, out'⟩, hle, recv_length_iff s 4 (by decide), ?_, hdrop⟩
  have hgoes := goes_on_iff hv hle
  rw [← htake] at hgoes
  simp only [sendCredentialsOn, hoffer, Option.map_some, decide_eq_decide.mpr hgoes]

end

/-- The client goes on exactly with `ACK_SUC`, and then at the first byte behind the
verdict, exactly when the verdict is `ACK_FAIL` or its bytes come with one `recv`;
it has taken them all in either case exactly when they do. -/
theorem verdict_read_iff (C : ClientEnv) (n : Nat) (username : Bytes) (st : ClientState) (out : Bytes) (s : Sock)
    (v : Int) (hv : v = ACK_SUC ∨ v = ACK_FAIL) (rest : Bytes) (hs : s.stream = i32Enc v ++ rest) :
    ∃ go w, sendCredentialsOn C n username ⟨st, s, out⟩ = some (go, w) ∧
      ((go = true ↔ v = ACK_SUC) ∧ (go = true → w.sock.stream = rest) ↔ v = ACK_FAIL ∨ Together s 4) ∧
      ((go = true ↔ v = ACK_SUC) ∧ w.sock.stream = rest ↔ Together s 4) := by
  obtain ⟨k, w, hk, hwhole, hrun, hstream⟩ := verdict_cases C n username st out hv hs
  have hrest : w.sock.stream = rest ↔ k = 4 := by
    rw [hstream]
    refine ⟨fun h => ?_, fun h => by simp [h]⟩
    have hlen := congrArg List.length h
    simp only [List.length_append, List.length_drop, i32Enc_length] at hlen
    omega
  refine ⟨_, w, hrun, ?_⟩
  rw [hrest, ← hwhole]
  rcases hv with rfl | rfl
  · have hne : ACK_SUC ≠ ACK_FAIL := by decide
    simp only [true_and, decide_eq_true_eq, iff_true, hne, false_or]
    omega
  · have hne : ACK_FAIL ≠ ACK_SUC := by decide
    simp [hne]

/-- The verdict `ACK_SUC` and one byte of a frame behind it, the first byte coming alone. -/
def splitVerdict : Sock := ⟨[.data [0] (by decide), .data [0, 0, 0, 9] (by decide)], 0⟩

/-- The same bytes at once. -/
def wholeVerdict : Sock := ⟨[.data [0, 0, 0, 0, 9] (by decide)], 0⟩

theorem verdict_read_whole :
    ∃ go w, sendCredentialsOn aliceClient 1 [97] ⟨aliceHome, wholeVerdict, []⟩ = some (go, w) ∧
      (go = true ↔ ACK_SUC = ACK_SUC) ∧ w.sock.stream = [9] := by
  obtain ⟨go, w, hrun, -, hall⟩ := verdict_read_iff aliceClient 1 [97] aliceHome [] wholeVerdict
    ACK_SUC (.inl rfl) [9] (by decide)
  exact ⟨go, w, hrun, hall.mpr ⟨_, _, _, rfl, by decide⟩⟩

/-- The client goes on inside the verdict. -/
theorem split_verdict_misread :
    splitVerdict.stream = i32Enc ACK_SUC ++ [9] ∧
    ∃ w, sendCredentialsOn aliceClient 1 [97] ⟨aliceHome, splitVerdict, []⟩ = some (true, w) ∧
      w.sock.stream ≠ [9] := by
  refine ⟨by decide, ?_⟩
  obtain ⟨st, out, hoffer⟩ := execSock_offer aliceClient 1 [97] aliceHome splitVerdict []
  have hne : Sock.stream ⟨[.data [0, 0, 0, 9] (by decide)], 0⟩ ≠ [9] := by decide
  refine ⟨⟨st, _, out⟩, ?_, hne⟩
  unfold sendCredentialsOn
  rw [hoffer]
  rfl

end Mefsc.L4
