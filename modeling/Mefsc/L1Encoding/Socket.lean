import Mefsc.Core.Net
import Mefsc.L1Encoding.SessionEnc

/-!
# `recv_fully` over a fragmenting socket

`Sock` is what the kernel will do for the next `recv` calls: deliver a
non-empty piece of the stream (a call that asks for less takes its front), or
fail with an errno. With nothing left, `recv` returns 0 and leaves errno alone.
`recvFully` is the retry loop of `src/encryption_utils/SessionEnc.cpp:8-21`,
bounded by the number of `recv` calls.

`execSock` runs a process on such a socket, with `recvFully` for each receive.
Fragmentation and interruptions are invisible: whatever the process does on the
plain byte stream, it does on every socket that delivers that stream in pieces
with `EINTR` failures in between (`execSock_of_exec`). The round trip of
session frames and raw blobs written back to back (`framing_round_trip`) is
proved on the stream and carried over by this.
-/
namespace Mefsc.L1

open Proc

variable {σ ρ α β γ : Type}

/-- What one `recv` call meets. -/
inductive Delivery where
  | data (b : Bytes) (ne : b ≠ [])
  | err (errno : Nat)

def EINTR : Nat := 4

structure Sock where
  coming : List Delivery
  errno : Nat

namespace Sock

/-- One `recv` call for at most `len` bytes: its return value, the bytes, and
the socket. -/
def recv (s : Sock) (len : Nat) : Int × Bytes × Sock :=
  match s.coming with
  | [] => (0, [], s)
  | .err e :: ds => (-1, [], ⟨ds, e⟩)
  | .data b _ :: ds =>
    if h : b.length ≤ len then (b.length, b, { s with coming := ds })
    else (len, b.take len, { s with coming := .data (b.drop len) (by simp; omega) :: ds })

/-- The bytes still to be delivered. -/
def bytes : List Delivery → Bytes
  | [] => []
  | .data b _ :: ds => b ++ bytes ds
  | .err _ :: ds => bytes ds

def stream (s : Sock) : Bytes := bytes s.coming

/-- Nothing but data and interruptions. -/
def OnlyEintr (s : Sock) : Prop := ∀ e, .err e ∈ s.coming → e = EINTR

end Sock

/-- Returns whether all bytes arrived, the bytes stored, and the socket;
`none`: more than `fuel` calls of `recv`.
mirrors src/encryption_utils/SessionEnc.cpp:8-21 -/
def recvFully : Nat → Sock → Nat → Bytes → Option (Bool × Bytes × Sock)
  | _, s, 0, dest => some (true, dest, s)
  | 0, _, _ + 1, _ => none
  | fuel + 1, s, len + 1, dest =>
    let x := s.recv (len + 1)
    if x.1 ≤ 0 then
      if x.2.2.errno = EINTR then recvFully fuel x.2.2 (len + 1) dest
      else some (false, dest, x.2.2)
    else recvFully fuel x.2.2 (len + 1 - x.2.1.length) (dest ++ x.2.1)

structure SockWorld (σ : Type) where
  st : σ
  sock : Sock
  out : Bytes

/-- A process on a socket; every send is taken whole. -/
def execSock (n : Nat) : {α : Type} → Proc σ ρ α → SockWorld σ → Option (α × SockWorld σ)
  | _, .ret a, w => some (a, w)
  | _, .recv _ m k, w =>
    (recvFully n w.sock m []).bind fun x =>
      execSock n (k (if x.1 then some x.2.1 else none)) { w with sock := x.2.2 }
  | _, .send _ b k, w => execSock n (k (some b.length)) { w with out := w.out ++ b }
  | _, .act f k, w => execSock n (k (f w.st).1) { w with st := (f w.st).2 }
  | _, .iter body g k, w =>
    (iterN (fun g w => execSock n (body g) w) n g w).bind fun x => execSock n (k x.1) x.2

/-! ## The retry loop -/

/-- With enough bytes on the way, `recv_fully` takes exactly `len` of them. -/
theorem recvFully_stream (fuel : Nat) (s : Sock) (len : Nat) (dest : Bytes)
    (hf : s.coming.length < fuel) (hl : len ≤ s.stream.length) (he : s.OnlyEintr) :
    ∃ s', recvFully fuel s len dest = some (true, dest ++ s.stream.take len, s') ∧
      s'.stream = s.stream.drop len ∧ s'.OnlyEintr ∧ s'.coming.length ≤ s.coming.length := by
  induction fuel generalizing s len dest with
  | zero => omega
  | succ fuel ih =>
    cases len with
    | zero => exact ⟨s, by simp [recvFully], by simp, he, Nat.le_refl _⟩
    | succ len =>
      obtain ⟨coming, errno⟩ := s
      cases coming with
      | nil => simp [Sock.stream, Sock.bytes] at hl
      | cons d ds =>
        have hds : Sock.OnlyEintr ⟨ds, errno⟩ := fun e h => he e (List.mem_cons_of_mem _ h)
        cases d with
        | err e =>
          obtain rfl : e = EINTR := he e List.mem_cons_self
          obtain ⟨s', h1, h2, h3, h4⟩ := ih ⟨ds, EINTR⟩ (len + 1) dest (by simp at hf ⊢; omega) hl
            (fun e h => he e (List.mem_cons_of_mem _ h))
          refine ⟨s', ?_, h2, h3, by simp at h4 ⊢; omega⟩
          simpa [recvFully, Sock.recv, Sock.stream, Sock.bytes] using h1
        | data b ne =>
          have hb : 0 < b.length := List.length_pos_iff.mpr ne
          by_cases hle : b.length ≤ len + 1
          · obtain ⟨s', h1, h2, h3, h4⟩ := ih ⟨ds, errno⟩ (len + 1 - b.length) (dest ++ b)
              (by simp at hf ⊢; omega)
              (by simp [Sock.stream, Sock.bytes] at hl ⊢; omega) hds
            refine ⟨s', ?_, ?_, h3, by simp at h4 ⊢; omega⟩
            · have hpos : ¬ ((b.length : Int) ≤ 0) := by omega
              simp only [recvFully, Sock.recv, hle, dite_true, hpos, if_false, h1]
              simp [Sock.stream, Sock.bytes, List.take_append, List.take_of_length_le hle]
            · rw [h2]
              simp [Sock.stream, Sock.bytes, List.drop_append, List.drop_eq_nil_of_le hle]
          · have hlt : len + 1 < b.length := by omega
            refine ⟨⟨.data (b.drop (len + 1)) (by simp; omega) :: ds, errno⟩, ?_, ?_, ?_, by simp⟩
            · have hpos : ¬ (((len + 1 : Nat) : Int) ≤ 0) := by omega
              have hmin : (b.take (len + 1)).length = len + 1 := by simp; omega
              simp only [recvFully, Sock.recv, hle, dite_false, hpos, if_false, hmin, Nat.sub_self]
              simp [Sock.stream, Sock.bytes, List.take_append_of_le_length hlt.le]
            · simp [Sock.stream, Sock.bytes, List.drop_append_of_le_length hlt.le]
            · intro e h
              exact hds e (by simpa using h)

/-- Executions on the stream are executions on every socket that delivers it. -/
theorem execSock_of_exec {n N : Nat} (hn : n ≤ N) (p : Proc σ ρ α) (st : σ) (s : Sock)
    (out : Bytes) (h : List (Ev ρ)) (he : s.OnlyEintr) (hN : s.coming.length < N) (a : α)
    (w' : World σ ρ) (hx : exec n p ⟨st, s.stream, false, h, []⟩ = some (a, w')) :
    ∃ s' evs, w' = ⟨w'.st, s'.stream, false, h ++ evs, []⟩ ∧ s'.OnlyEintr ∧
      s'.coming.length ≤ s.coming.length ∧
      execSock N p ⟨st, s, out⟩ = some (a, ⟨w'.st, s', out ++ sent evs⟩) := by
  induction p generalizing st s out h w' with
  | ret b =>
    simp only [exec, Option.some.injEq, Prod.mk.injEq] at hx
    obtain ⟨rfl, rfl⟩ := hx
    exact ⟨s, [], by simp, he, Nat.le_refl _, by simp [execSock, sent]⟩
  | recv r m k ih =>
    simp only [exec, Option.bind_eq_some_iff] at hx
    obtain ⟨⟨o, w1⟩, h1, h2⟩ := hx
    simp only [World.recv] at h1
    split at h1
    · rename_i hm
      simp only [Option.some.injEq, Prod.mk.injEq] at h1
      obtain ⟨rfl, rfl⟩ := h1
      obtain ⟨s1, e1, e2, e3, e4⟩ := recvFully_stream N s m [] hN hm he
      rw [← e2] at h2
      obtain ⟨s', evs, hw, e5, e6, e7⟩ := ih _ st s1 out _ e3 (by omega) _ _ h2
      refine ⟨s', .rcv r (some (s.stream.take m)) :: evs, by simpa using hw, e5, by omega, ?_⟩
      simpa [execSock, e1, sent] using e7
    · simp at h1
  | send r b k ih =>
    simp only [exec, World.send] at hx
    obtain ⟨s', evs, hw, e5, e6, e7⟩ := ih _ st s (out ++ b) _ he hN _ _ hx
    refine ⟨s', .snd r b :: evs, by simpa using hw, e5, e6, ?_⟩
    simpa [execSock, sent] using e7
  | act f k ih =>
    obtain ⟨s', evs, hw, e5, e6, e7⟩ := ih _ _ s out _ he hN _ _ hx
    exact ⟨s', evs, hw, e5, e6, by simpa [execSock] using e7⟩
  | iter body g k ihb ih =>
    simp only [exec, Option.bind_eq_some_iff] at hx
    obtain ⟨⟨b, w1⟩, h1, h2⟩ := hx
    -- induction on the rounds, as for `exec`
    have key : ∀ m M g st s out h, m ≤ M → s.OnlyEintr → s.coming.length < N →
        iterN (fun g w => exec n (body g) w) m g ⟨st, s.stream, false, h, []⟩ = some (b, w1) →
        ∃ s' evs, w1 = ⟨w1.st, s'.stream, false, h ++ evs, []⟩ ∧ s'.OnlyEintr ∧
          s'.coming.length ≤ s.coming.length ∧
          iterN (fun g w => execSock N (body g) w) M g ⟨st, s, out⟩ =
            some (b, ⟨w1.st, s', out ++ sent evs⟩) := by
      intro m
      induction m with
      | zero => intro M g st s out h _ _ _ hx; simp [iterN] at hx
      | succ m ihm =>
        intro M g st s out h hM he hN hx
        obtain ⟨M, rfl⟩ : ∃ k, M = k + 1 := ⟨M - 1, by omega⟩
        rw [iterN] at hx
        cases hg : exec n (body g) ⟨st, s.stream, false, h, []⟩ with
        | none => simp [hg] at hx
        | some y =>
          obtain ⟨y, w2⟩ := y
          obtain ⟨s1, evs, hw2, e1, e2, e3⟩ := ihb g st s out h he hN _ _ hg
          cases y with
          | inr b' =>
            simp only [hg, Option.some.injEq, Prod.mk.injEq] at hx
            obtain ⟨rfl, rfl⟩ := hx
            exact ⟨s1, evs, hw2, e1, e2, by simp [iterN, e3]⟩
          | inl g' =>
            simp only [hg] at hx
            rw [hw2] at hx
            obtain ⟨s', evs', hw1, e4, e5, e6⟩ :=
              ihm M g' _ s1 (out ++ sent evs) _ (by omega) e1 (by omega) hx
            refine ⟨s', evs ++ evs', by simpa using hw1, e4, by omega, ?_⟩
            simp [iterN, e3, e6]
    obtain ⟨s1, evs, hw1, e1, e2, e3⟩ := key n N g st s out h hn he hN h1
    rw [hw1] at h2
    obtain ⟨s', evs', hw, e4, e5, e6⟩ := ih _ _ s1 (out ++ sent evs) _ e1 (by omega) _ _ h2
    exact ⟨s', evs ++ evs', by simpa using hw, e4, by omega, by simp [execSock, e3, e6]⟩

/-! ## Items written back to back -/

/-- One item on the stream. `size`: the length of a blob is a `size_t`. -/
inductive Item where
  | msg (m : Bytes) (short : m.length ≤ FILE_ENCRYPTED_CHUNK_SIZE)
  | raw (b : Bytes) (size : b.length < 2 ^ 64)

def Item.bytes : Item → Bytes
  | .msg m _ => m
  | .raw b _ => b

/-- Each message in a `SessionEncWrapper` of its own, sharing one nonce. -/
def writeItems (A : Aead) (tx : Bytes) : List Item → Bytes → Proc σ Unit Unit
  | [], _ => return ()
  | .msg m _ :: is, nonce => do
    let nonce ← sendFrame A () m tx nonce
    writeItems A tx is nonce
  | .raw b _ :: is, nonce => do
    let _ ← sendRawBlob () b
    writeItems A tx is nonce

/-- How one item is read: the capacity, and for a session frame what the
caller's buffer and length variable hold before. -/
structure Reading where
  cap : Nat
  buf : Bytes
  len : Nat

/-- Read one item; `none` when the reader constructor, `unwrap` or
`recv_raw_blob` reports failure. -/
def readItem (A : Aead) (rx : Bytes) (rd : Reading) : Item → Proc σ Unit (Option Bytes)
  | .msg _ _ => do
    let w ← SessionEncWrapper.ofSock ()
    let u := w.unwrap A rx rd.cap rd.buf rd.len
    return if u.ret = 0 then some (u.decrypted_data.take u.decrypted_data_len) else none
  | .raw _ _ => recvRawBlob () rd.cap

/-- Read the matching sequence of items; `none` as soon as one fails. -/
def readItems (A : Aead) (rx : Bytes) : List (Item × Reading) → Proc σ Unit (Option (List Bytes))
  | [] => return some []
  | (i, rd) :: is => do
    match ← readItem A rx rd i with
    | none => return none
    | some m =>
      match ← readItems A rx is with
      | none => return none
      | some ms => return some (m :: ms)

/-- The bytes the items become, and the events of writing them. -/
def wireEvs (A : Aead) (tx : Bytes) : List Item → Bytes → List (Ev Unit)
  | [], _ => []
  | .msg m _ :: is, nonce =>
    .snd () (frame A tx (sodiumIncrement nonce) m) :: wireEvs A tx is (sodiumIncrement nonce)
  | .raw b _ :: is, nonce => blobEvs () b ++ wireEvs A tx is nonce

theorem runs_writeItems (A : Aead) (tx : Bytes) (is : List Item) (nonce : Bytes) (st : σ)
    (inp : Bytes) (e : Bool) (h : List (Ev Unit)) :
    Runs (writeItems A tx is nonce) ⟨st, inp, e, h, []⟩ ()
      ⟨st, inp, e, h ++ wireEvs A tx is nonce, []⟩ := by
  induction is generalizing nonce h with
  | nil => simp [writeItems, wireEvs]
  | cons i is ih =>
    cases i with
    | msg m hm =>
      refine Runs.bind (runs_sendFrame st e h A () inp m tx nonce) ?_
      have := ih (sodiumIncrement nonce) (h ++ [.snd () (frame A tx (sodiumIncrement nonce) m)])
      rwa [List.append_assoc] at this
    | raw b hb =>
      refine Runs.bind (runs_sendRawBlob st e h () inp b) ?_
      have := ih nonce (h ++ blobEvs () b)
      rwa [List.append_assoc] at this

@[simp] theorem sent_blobEvs (r : ρ) (b : Bytes) : sent (blobEvs r b) = blob b := by
  unfold blobEvs blob
  split
  · rename_i hb; simp [sent, hb]
  · simp [sent]

@[simp] theorem sent_frameRcvs (A : Aead) (r : ρ) (tx n m : Bytes) :
    sent (frameRcvs A r tx n m) = [] := rfl

@[simp] theorem sent_blobRcvs (r : ρ) (b : Bytes) : sent (blobRcvs r b) = [] := by
  unfold blobRcvs
  split <;> rfl

theorem runs_readItem (A : Aead) (key : Bytes) (i : Item) (rd : Reading)
    (hc : i.bytes.length ≤ rd.cap) (nonce : Bytes) (st : σ) (rest : Bytes) (h : List (Ev Unit)) :
    ∃ evs, sent evs = [] ∧ Runs (readItem A key rd i)
      ⟨st, sent (wireEvs A key [i] nonce) ++ rest, false, h, []⟩ (some i.bytes)
      ⟨st, rest, false, h ++ evs, []⟩ := by
  cases i with
  | msg m hm =>
    refine ⟨frameRcvs A () key (sodiumIncrement nonce) m, by simp, ?_⟩
    have hr := runs_ofSock_frame st false h A () key (sodiumIncrement_length nonce) hm rest
    refine Runs.bind (by simpa [wireEvs, sent] using hr) ?_
    simp only [runs_pure, and_true]
    rw [unwrap_received A key _ hm hc]
    simp [blit, Item.bytes]
  | raw b hb =>
    refine ⟨blobRcvs () b, by simp, ?_⟩
    simpa [wireEvs, sent, Item.bytes, readItem] using runs_recvRawBlob st false h () hc hb rest

theorem runs_readItems (A : Aead) (key : Bytes) (is : List (Item × Reading))
    (hc : ∀ x ∈ is, x.1.bytes.length ≤ x.2.cap) (nonce : Bytes) (st : σ) (further : Bytes)
    (h : List (Ev Unit)) :
    ∃ evs, sent evs = [] ∧ Runs (readItems A key is)
      ⟨st, sent (wireEvs A key (is.map Prod.fst) nonce) ++ further, false, h, []⟩
      (some (is.map fun x => x.1.bytes)) ⟨st, further, false, h ++ evs, []⟩ := by
  induction is generalizing nonce h with
  | nil => exact ⟨[], rfl, by simp [readItems, wireEvs, sent]⟩
  | cons x is ih =>
    obtain ⟨i, rd⟩ := x
    have hsplit : ∃ nonce', sent (wireEvs A key (i :: is.map Prod.fst) nonce) =
        sent (wireEvs A key [i] nonce) ++ sent (wireEvs A key (is.map Prod.fst) nonce') := by
      cases i with
      | msg m hm => exact ⟨sodiumIncrement nonce, by simp [wireEvs, sent]⟩
      | raw b hb => exact ⟨nonce, by simp [wireEvs]⟩
    obtain ⟨nonce', hs⟩ := hsplit
    obtain ⟨evs, hs1, h1⟩ := runs_readItem A key i rd (hc (i, rd) List.mem_cons_self) nonce st
      (sent (wireEvs A key (is.map Prod.fst) nonce') ++ further) h
    obtain ⟨evs', hs2, h2⟩ := ih (fun x hx => hc x (List.mem_cons_of_mem _ hx)) nonce' (h ++ evs)
    refine ⟨evs ++ evs', by simp [hs1, hs2], ?_⟩
    rw [List.map_cons, hs, List.append_assoc]
    refine Runs.bind h1 ?_
    refine Runs.bind h2 ?_
    simp

/-- Items written back to back, followed by anything, are read back in order
from every socket that delivers their bytes in pieces, interrupted or not; the
bytes behind them stay unread. -/
theorem framing_round_trip (A : Aead) (key nonce : Bytes) (is : List (Item × Reading))
    (hc : ∀ x ∈ is, x.1.bytes.length ≤ x.2.cap) (st : σ) (W : World σ Unit)
    (hw : Runs (writeItems A key (is.map Prod.fst) nonce) ⟨st, [], false, [], []⟩ () W)
    (further : Bytes) (s : Sock) (hs : s.stream = sent W.hist ++ further) (he : s.OnlyEintr) :
    ∃ N s', execSock N (readItems A key is) ⟨st, s, []⟩ =
        some (some (is.map fun x => x.1.bytes), ⟨st, s', []⟩) ∧ s'.stream = further := by
  obtain ⟨-, rfl⟩ := hw.unique (runs_writeItems A key (is.map Prod.fst) nonce st [] false [])
  obtain ⟨evs, hsent, n, hx⟩ := runs_readItems A key is hc nonce st further []
  simp only [List.nil_append] at hs hx
  rw [← hs] at hx
  obtain ⟨s', evs', hw', -, -, hx'⟩ :=
    execSock_of_exec (Nat.le_max_left n (s.coming.length + 1)) (readItems A key is) st s [] [] he
      (by omega) _ _ hx
  simp only [World.mk.injEq, List.nil_append, true_and, and_true] at hw'
  obtain ⟨hst, rfl⟩ := hw'
  exact ⟨_, s', by simpa [hsent] using hx', hst.symm⟩

/-- A message and a blob, each read with room to spare. -/
def twoItems : List (Item × Reading) :=
  [(.msg [5, 6] (by decide), ⟨4, [1, 1, 1, 1], 0⟩), (.raw [7] (by decide), ⟨9, [], 0⟩)]

/-- Their bytes and one more, cut inside the first length field with an
interruption at the cut. -/
def twoItemsSock : Sock :=
  let b := sent (wireEvs plainAead [3] (twoItems.map Prod.fst) [0]) ++ [9]
  ⟨[.data (b.take 3) (by decide), .err EINTR, .data (b.drop 3) (by decide)], 0⟩

theorem framing_round_trip_twoItems :
    ∃ N s', execSock N (readItems plainAead [3] twoItems) ⟨(), twoItemsSock, []⟩ =
      some (some [[5, 6], [7]], ⟨(), s', []⟩) ∧ s'.stream = [9] :=
  framing_round_trip plainAead [3] [0] twoItems (by decide) () _
    (runs_writeItems plainAead [3] (twoItems.map Prod.fst) [0] () [] false []) [9] twoItemsSock
    (by decide) (by intro e h; simpa [twoItemsSock] using h)

end Mefsc.L1
