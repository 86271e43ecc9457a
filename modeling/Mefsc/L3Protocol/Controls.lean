import Mefsc.Core.Channel
import Mefsc.L1Encoding.Unwrap
import Mefsc.L3Protocol.Wire

/-!
# Control messages in a history

The messages that steer the server (notices, intents, names, headers, salts and
chunk prefixes) are session frames. From the history of a party:

* `heard`: the frames that the server unwraps, each with its nonce, its plaintext
  and the number of bytes received up to its end;
* `spoken`: the frames that the client has encrypted, with the number of bytes sent.

`Hears evl evr`: the server hears in `evr` all that the client says in `evl`;
`Heeds evl evr`: it hears the first of it.
-/
namespace Mefsc.L3

open L1 L1.SessionEncWrapper
open Proc hiding ret recv send act iter bind bind_assoc

/-- The capacity the server gives `unwrap` for a message; `none`: what it does not
unwrap. -/
def room : Kind → Option Nat
  | .notice | .intent | .chunkPrefix _ => some 4
  | .fileExists => some 1
  | .fileName => some PRE_EXT_FILE_NAME_LEN
  | .header => some STREAM_HEADERBYTES
  | .salt => some PWHASH_SALTBYTES
  | .chunk _ | .listCount | .listName _ | .deleteResult => none

/-- What `unwrap` makes of the bytes of a frame: nonce and plaintext. -/
def unwrapped (A : Aead) (rx : Bytes) (cap : Nat) (x : Bytes) : Option (Bytes × Bytes) :=
  match takeFrame x with
  | some (w, []) =>
    let u := w.unwrap A rx cap [] 0
    if u.ret = 0 then some (w.nonce, u.decrypted_data.take u.decrypted_data_len) else none
  | _ => none

/-- Where the reader constructor is: in front of a length, a nonce or the data. -/
inductive Awaiting where
  | length
  | nonce (cap : Nat) (len : Bytes)
  | data (cap : Nat) (len nonce : Bytes)

/-- With `o` bytes received before. -/
def heard (A : Aead) (rx : Bytes) : Awaiting → Nat → List (Ev Role) → List (Nat × Bytes × Bytes)
  | _, _, [] => []
  | s, o, .snd _ _ :: es => heard A rx s o es
  | _, o, .rcv _ none :: es => heard A rx .length o es
  | .length, o, .rcv r (some b) :: es =>
    match room r.kind with
    | none => heard A rx .length (o + b.length) es
    | some cap =>
      if stream_chunk_size < leDec b then heard A rx .length (o + b.length) es
      else heard A rx (.nonce cap b) (o + b.length) es
  | .nonce cap len, o, .rcv _ (some b) :: es => heard A rx (.data cap len b) (o + b.length) es
  | .data cap len nonce, o, .rcv _ (some b) :: es =>
    (unwrapped A rx cap (len ++ nonce ++ b)).toList.map (fun x => (o + b.length, x)) ++
      heard A rx .length (o + b.length) es

/-- The nonce and the plaintext of a frame, for who has the key. -/
def said (A : Aead) (tx b : Bytes) : Option (Bytes × Bytes) :=
  (A.decrypt tx ((b.drop 8).take AEAD_NPUBBYTES) ((b.drop 8).drop AEAD_NPUBBYTES)).map fun m =>
    ((b.drop 8).take AEAD_NPUBBYTES, m)

/-- With `o` bytes sent before. -/
def spoken (A : Aead) (tx : Bytes) : Nat → List (Ev Role) → List (Nat × Bytes × Bytes)
  | _, [] => []
  | o, .rcv _ _ :: es => spoken A tx o es
  | o, .snd r b :: es =>
    match room r.kind with
    | none => spoken A tx (o + b.length) es
    | some _ => (said A tx b).toList.map (fun x => (o + b.length, x)) ++ spoken A tx (o + b.length) es

section
variable {A : Aead} {K : Bytes}

/-! ## Histories that grow -/

theorem heard_mono (s : Awaiting) (o : Nat) (x y : List (Ev Role)) :
    heard A K s o x <+: heard A K s o (x ++ y) := by
  fun_induction heard A K s o x with
  | case1 => exact List.nil_prefix
  | case2 s o r b es ih => simpa [heard] using ih
  | case3 s o r es ih => simpa [heard] using ih
  | case4 o r b es h ih => simpa [heard, h] using ih
  | case5 o r b es cap h hbig ih => simpa [heard, h, hbig] using ih
  | case6 o r b es cap h hbig ih => simpa [heard, h, hbig] using ih
  | case7 cap len o r b es ih => simpa [heard] using ih
  | case8 cap len nonce o r b es ih => simpa [heard] using ih

theorem spoken_append (o : Nat) (x y : List (Ev Role)) :
    spoken A K o (x ++ y) = spoken A K o x ++ spoken A K (o + (sent x).length) y := by
  fun_induction spoken A K o x with
  | case1 => simp [sent]
  | case2 o r b es ih => simpa [spoken, sent] using ih
  | case3 o r b es h ih => simpa [spoken, sent, h, Nat.add_assoc] using ih
  | case4 o r b es cap h ih => simpa [spoken, sent, h, Nat.add_assoc] using ih

/-- Without bytes nothing is heard. -/
theorem heard_nothing {x : List (Ev Role)} (h : rcvd x = []) (o : Nat) : heard A K .length o x = [] := by
  have hall : ∀ s, (s = .length ∨ (∃ cap, s = .nonce cap []) ∨ ∃ cap, s = .data cap [] []) →
      heard A K s o x = [] := by
    induction x generalizing o with
    | nil => intro s _; simp [heard]
    | cons e x ih =>
      intro s hs
      cases e with
      | snd r b =>
        rw [heard]
        exact ih h o s hs
      | rcv r b =>
        cases b with
        | none =>
          rw [heard]
          exact ih h o _ (.inl rfl)
        | some b =>
          obtain ⟨rfl, hx⟩ : b = [] ∧ rcvd x = [] := by simpa [rcvd] using h
          have ih := fun s hs => ih hx o s hs
          rcases hs with rfl | ⟨cap, rfl⟩ | ⟨cap, rfl⟩
          · rw [heard]
            split
            · exact ih _ (.inl rfl)
            · rename_i cap _
              split
              · exact ih _ (.inl rfl)
              · exact ih _ (.inr (.inl ⟨cap, rfl⟩))
          · rw [heard]
            exact ih _ (.inr (.inr ⟨cap, rfl⟩))
          · rw [heard]
            exact ih _ (.inl rfl)
  exact hall _ (.inl rfl)

/-- What is heard has been received. -/
theorem heard_le (s : Awaiting) (o : Nat) (x : List (Ev Role)) :
    ∀ e ∈ heard A K s o x, e.1 ≤ o + (rcvd x).length := by
  fun_induction heard A K s o x with
  | case1 => simp
  | case2 s o r b es ih => simpa [rcvd] using ih
  | case3 s o r es ih => simpa [rcvd] using ih
  | case4 o r b es h ih => simpa [rcvd, Nat.add_assoc] using ih
  | case5 o r b es cap h hbig ih => simpa [rcvd, Nat.add_assoc] using ih
  | case6 o r b es cap h hbig ih => simpa [rcvd, Nat.add_assoc] using ih
  | case7 cap len o r b es ih => simpa [rcvd, Nat.add_assoc] using ih
  | case8 cap len nonce o r b es ih =>
    intro e he
    simp only [rcvd, List.length_append]
    rcases List.mem_append.mp he with he | he
    · obtain ⟨x, -, rfl⟩ := List.mem_map.mp he
      simp only
      omega
    · have := ih e he
      omega

theorem said_pos {b : Bytes} {x : Bytes × Bytes} (h : said A K b = some x) : 0 < b.length := by
  obtain ⟨m, hm, -⟩ := Option.map_eq_some_iff.mp h
  have hlen := A.decrypt_length _ _ _ _ hm
  simp only [List.length_drop, AEAD_ABYTES] at hlen
  omega

/-- What is said later ends later. -/
theorem spoken_gt (o : Nat) (x : List (Ev Role)) : ∀ e ∈ spoken A K o x, o < e.1 := by
  fun_induction spoken A K o x with
  | case1 => simp
  | case2 o r b es ih => exact ih
  | case3 o r b es h ih =>
    intro e he
    have := ih e he
    omega
  | case4 o r b es cap h ih =>
    intro e he
    rcases List.mem_append.mp he with he | he
    · obtain ⟨x, hx, rfl⟩ := List.mem_map.mp he
      have := said_pos (Option.mem_toList.mp hx)
      simp only
      omega
    · have := ih e he
      omega

/-- A prefix at a later moment is one now: nothing is heard before it is said. -/
theorem heard_begins {hl hl' hr hr' : List (Ev Role)} (hlg : hl <+: hl') (hrg : hr <+: hr')
    (hf : (rcvd hr).length ≤ (sent hl).length)
    (h : heard A K .length 0 hr' <+: spoken A K 0 hl') :
    heard A K .length 0 hr <+: spoken A K 0 hl := by
  obtain ⟨y, rfl⟩ := hlg
  obtain ⟨z, rfl⟩ := hrg
  have hall := (heard_mono .length 0 hr z).trans h
  rw [spoken_append, Nat.zero_add] at hall
  by_cases hlen : (heard A K .length 0 hr).length ≤ (spoken A K 0 hl).length
  · exact List.prefix_of_prefix_length_le hall (List.prefix_append _ _) hlen
  · -- its first entry behind what has been said would end behind what has been sent
    obtain ⟨w, hw⟩ := List.prefix_of_prefix_length_le (List.prefix_append _ _) hall (Nat.le_of_not_le hlen)
    obtain ⟨v, hv⟩ := hall
    rw [← hw, List.append_assoc] at hv
    have htail := List.append_cancel_left hv
    cases w with
    | nil =>
      rw [List.append_nil] at hw
      rw [← hw] at hlen
      exact absurd (Nat.le_refl _) hlen
    | cons e w =>
      have hlate := spoken_gt (A := A) (K := K) (sent hl).length y e (htail ▸ List.mem_cons_self)
      have hearly := heard_le (A := A) (K := K) .length 0 hr e
        (hw ▸ List.mem_append_right _ List.mem_cons_self)
      omega

/-! ## The reader constructor -/

theorem takeFrame_parts {b n d : Bytes} (hb : b.length = 8) (hn : n.length = AEAD_NPUBBYTES)
    (hd : d.length = leDec b) (hfit : ¬ stream_chunk_size < leDec b) :
    takeFrame (b ++ n ++ d) = some (⟨false, d, n, leDec b, .reader⟩, []) := by
  have hlen : ¬ (b ++ (n ++ d)).length < 8 := by
    rw [List.length_append]
    omega
  have hlen' : ¬ (n ++ d).length < AEAD_NPUBBYTES := by
    rw [List.length_append]
    omega
  unfold takeFrame
  rw [List.append_assoc, if_neg hlen, List.take_left' hb, if_neg hfit, List.drop_left' hb, if_neg hlen',
    List.drop_left' hn, if_neg (by omega), List.take_left' hn, ← hd, List.take_length, List.drop_length]

/-- What is heard of a frame is what `unwrap` accepts of it. -/
theorem heard_ofSock {σ : Type} {r : Role} {cap : Nat} (hr : room r.kind = some cap) {st : σ} {inp : Bytes} {e : Bool}
    {h : List (Ev Role)} {os : List (Option Nat)} {x : SessionEncWrapper} {w : World σ Role}
    (hx : Runs (ofSock r) ⟨st, inp, e, h, os⟩ x w) :
    ∃ evs, w.hist = h ++ evs ∧ ∀ o es, heard A K .length o (evs ++ es) =
      (if (x.unwrap A K cap [] 0).ret = 0 then
        [(o + (rcvd evs).length, x.nonce, (x.unwrap A K cap [] 0).decrypted_data.take
          (x.unwrap A K cap [] 0).decrypted_data_len)] else []) ++
        heard A K .length (o + (rcvd evs).length) es := by
  unfold ofSock at hx
  rw [runs_bind] at hx
  obtain ⟨y, w2, h1, hx⟩ := hx
  rcases recvN_cases h1 with ⟨hn, rfl, rfl⟩ | ⟨hn, he, rfl, rfl⟩
  · simp only at hx
    split at hx
    · rename_i hbig
      obtain ⟨rfl, rfl⟩ := (runs_pure _ _ _ _).mp hx
      refine ⟨_, rfl, fun o es => ?_⟩
      rw [if_neg (unwrap_corrupted A K rfl cap [] 0)]
      simp [heard, hr, hbig, rcvd]
    · rename_i hbig
      rw [runs_bind] at hx
      obtain ⟨y, w3, h2, hx⟩ := hx
      rcases recvN_cases h2 with ⟨hn2, rfl, rfl⟩ | ⟨hn2, he, rfl, rfl⟩
      · simp only at hx
        rw [runs_bind] at hx
        obtain ⟨y, w4, h3, hx⟩ := hx
        rcases recvN_cases h3 with ⟨hn3, rfl, rfl⟩ | ⟨hn3, he, rfl, rfl⟩
        · obtain ⟨rfl, rfl⟩ := (runs_pure _ _ _ _).mp hx
          refine ⟨_, by rw [List.append_assoc, List.append_assoc], fun o es => ?_⟩
          have ht := takeFrame_parts (List.length_take_of_le hn) (List.length_take_of_le hn2)
            (List.length_take_of_le hn3) hbig
          simp only [List.cons_append, List.nil_append, heard, hr, hbig, if_false, unwrapped, ht, rcvd,
            List.length_append, List.length_nil, Nat.add_zero, Nat.add_assoc]
          split <;> rfl
        · obtain ⟨rfl, rfl⟩ := (runs_pure _ _ _ _).mp hx
          refine ⟨_, by rw [List.append_assoc, List.append_assoc], fun o es => ?_⟩
          rw [if_neg (unwrap_corrupted A K rfl cap [] 0)]
          simp only [List.cons_append, List.nil_append, heard, hr, hbig, if_false, rcvd, List.length_append,
            List.length_nil, Nat.add_zero, Nat.add_assoc]
      · obtain ⟨rfl, rfl⟩ := (runs_pure _ _ _ _).mp hx
        refine ⟨_, by rw [List.append_assoc], fun o es => ?_⟩
        rw [if_neg (unwrap_corrupted A K rfl cap [] 0)]
        simp only [List.cons_append, List.nil_append, heard, hr, hbig, if_false, rcvd, List.length_append,
          List.length_nil, Nat.add_zero]
  · obtain ⟨rfl, rfl⟩ := (runs_pure _ _ _ _).mp hx
    refine ⟨_, rfl, fun o es => ?_⟩
    rw [if_neg (unwrap_corrupted A K rfl cap [] 0)]
    simp [heard, rcvd]

/-! ## Frames and blobs -/

theorem unwrap_frame {n m : Bytes} (hn : n.length = 8) (hm : m.length ≤ FILE_ENCRYPTED_CHUNK_SIZE) (cap : Nat) :
    (unwrap A (received A K n m) K cap [] 0).ret = 0 ↔ m.length ≤ cap := by
  have ht := takeFrame_frame A K hn hm []
  have hw := takeFrame_taken ht rfl
  have hv := verified_received A K n m
  generalize hu : unwrap A (received A K n m) K cap [] 0 = u
  have h : Unwraps A K cap [] 0 (received A K n m) (unwrap A (received A K n m) K cap [] 0) := hw.unwraps cap [] 0
  rw [hu] at h
  have hlen := hv.length hw
  cases h with
  | stub hs =>
    unfold Stub at hs
    omega
  | long hl =>
    refine iff_of_false (by simp) ?_
    omega
  | forged hf => exact absurd (hf.rejected.symm.trans hv) (by simp)
  | ok m' h' hm' => exact iff_of_true rfl (hv.unique h' ▸ hm')

theorem said_frame {n : Bytes} (hn : n.length = 8) (m : Bytes) : said A K (frame A K n m) = some (n, m) := by
  have hn' : n.length = AEAD_NPUBBYTES := hn
  unfold said frame
  rw [List.append_assoc, List.drop_left' (u64Enc_length _), List.take_left' hn', List.drop_left' hn',
    A.decrypt_encrypt]
  rfl

theorem heard_frame {r : Role} {cap : Nat} (hr : room r.kind = some cap) {n m : Bytes} (hn : n.length = 8)
    (hm : m.length ≤ FILE_ENCRYPTED_CHUNK_SIZE) (o : Nat) (es : List (Ev Role)) :
    heard A K .length o (frameRcvs A r K n m ++ es) =
      (if m.length ≤ cap then [(o + (frame A K n m).length, n, m)] else []) ++
        heard A K .length (o + (frame A K n m).length) es := by
  have hrun := runs_ofSock_frame () false [] A r K hn hm []
  obtain ⟨evs, hevs, h⟩ := heard_ofSock (A := A) (K := K) hr hrun
  obtain rfl : frameRcvs A r K n m = evs := by simpa using hevs
  have hlen : (rcvd (frameRcvs A r K n m)).length = (frame A K n m).length := by
    simp [frameRcvs, rcvd, frame]
  rw [h, hlen]
  by_cases hcap : m.length ≤ cap
  · have hw := takeFrame_taken (takeFrame_frame A K hn hm []) rfl
    rw [if_pos ((unwrap_frame hn hm cap).mpr hcap), if_pos hcap,
      unwrap_verified hw (verified_received A K n m) hcap]
    simp [received, blit]
  · rw [if_neg (mt (unwrap_frame hn hm cap).mp hcap), if_neg hcap]

theorem heard_blob (act j : Nat) (b : Bytes) (o : Nat) (es : List (Ev Role)) :
    heard A K .length o (blobRcvs ⟨act, .chunk j⟩ b ++ es) = heard A K .length (o + (blob b).length) es := by
  unfold blobRcvs blob
  split
  · rename_i hb
    simp [heard, room, hb]
  · simp [heard, room, Nat.add_assoc]

theorem spoken_frame {r : Role} {cap : Nat} (hr : room r.kind = some cap) {n : Bytes} (hn : n.length = 8) (m : Bytes)
    (o : Nat) (es : List (Ev Role)) :
    spoken A K o (.snd r (frame A K n m) :: es) = (o + (frame A K n m).length, n, m) ::
      spoken A K (o + (frame A K n m).length) es := by
  simp [spoken, hr, said_frame hn]

theorem spoken_blob (act j : Nat) (b : Bytes) (o : Nat) (es : List (Ev Role)) :
    spoken A K o (blobEvs ⟨act, .chunk j⟩ b ++ es) = spoken A K (o + (blob b).length) es := by
  unfold blobEvs blob
  split
  · rename_i hb
    simp [spoken, room, hb]
  · simp [spoken, room, Nat.add_assoc]

end

/-! ## Hearing what is said -/

@[simp] theorem isRcv_frameRcvs (A : Aead) (r : Role) (tx n m : Bytes) : (frameRcvs A r tx n m).all Ev.isRcv = true :=
  rfl

@[simp] theorem isRcv_blobRcvs (r : Role) (b : Bytes) : (blobRcvs r b).all Ev.isRcv = true := by
  unfold blobRcvs
  split <;> rfl

@[simp] theorem isSnd_blobEvs (r : Role) (b : Bytes) : (blobEvs r b).all Ev.isSnd = true := by
  unfold blobEvs
  split <;> rfl

theorem isSnd_chunkEvs (A : Aead) (tx : Bytes) (act : Nat) (nonce : Bytes) (j : Nat) (cs : List (Int × Bytes)) :
    (chunkEvs A tx act nonce j cs).all Ev.isSnd = true := by
  induction cs generalizing nonce j with
  | nil => rfl
  | cons c cs ih =>
    rw [chunkEvs, List.all_cons, List.all_append, isSnd_blobEvs, ih]
    rfl

theorem isRcv_chunkRcvs (A : Aead) (tx : Bytes) (act : Nat) (nonce : Bytes) (j : Nat) (cs : List (Int × Bytes)) :
    (chunkRcvs A tx act nonce j cs).all Ev.isRcv = true := by
  induction cs generalizing nonce j with
  | nil => rfl
  | cons c cs ih => rw [chunkRcvs, List.all_append, List.all_append, isRcv_frameRcvs, isRcv_blobRcvs, ih]; rfl

theorem isSnd_nameEvs (A : Aead) (tx : Bytes) (act : Nat) (nonce : Nat → Bytes) (i : Nat) (ns : List Bytes) :
    (nameEvs A tx act nonce i ns).all Ev.isSnd = true := by
  induction ns generalizing i with
  | nil => rfl
  | cons n ns ih =>
    rw [nameEvs, List.all_cons, ih]
    rfl

theorem isRcv_nameRcvs (A : Aead) (tx : Bytes) (act : Nat) (nonce : Nat → Bytes) (i : Nat) (ns : List Bytes) :
    (nameRcvs A tx act nonce i ns).all Ev.isRcv = true := by
  induction ns generalizing i with
  | nil => rfl
  | cons n ns ih => rw [nameRcvs, List.all_append, isRcv_frameRcvs, ih]; rfl

theorem isSnd_fileEvs (A : Aead) (tx : Bytes) (act : Nat) (nonce header salt : Bytes) (bs : List Bytes) :
    (fileEvs A tx act nonce header salt bs).all Ev.isSnd = true := by
  rw [fileEvs, List.all_cons, List.all_cons, isSnd_chunkEvs]
  rfl

theorem isRcv_fileRcvs (A : Aead) (tx : Bytes) (act : Nat) (nonce header salt : Bytes) (bs : List Bytes) :
    (fileRcvs A tx act nonce header salt bs).all Ev.isRcv = true := by
  rw [fileRcvs, List.all_append, List.all_append, isRcv_frameRcvs, isRcv_frameRcvs, isRcv_chunkRcvs]
  rfl

/-- Between two frames: all that is said is heard, at the same place in the
stream. -/
def Hears (A : Aead) (K : Bytes) (evl evr : List (Ev Role)) : Prop :=
  ∀ o es, heard A K .length o (evr ++ es) =
    spoken A K o evl ++ heard A K .length (o + (sent evl).length) es

/-- What is heard is the first of what is said, and the reader is in front of the next
frame. -/
def Heeds (A : Aead) (K : Bytes) (evl evr : List (Ev Role)) : Prop :=
  ∀ o, ∃ out, out <+: spoken A K o evl ∧
    ∀ es, heard A K .length o (evr ++ es) = out ++ heard A K .length (o + (sent evl).length) es

section
variable {A : Aead} {K : Bytes} {evl evr : List (Ev Role)}

theorem Hears.heeds (h : Hears A K evl evr) : Heeds A K evl evr :=
  fun o => ⟨spoken A K o evl, List.prefix_rfl, h o⟩

theorem Hears.append_heeds {evl' evr' : List (Ev Role)} (h : Hears A K evl evr) (h' : Heeds A K evl' evr') :
    Heeds A K (evl ++ evl') (evr ++ evr') := by
  intro o
  obtain ⟨out, hout, h'⟩ := h' (o + (sent evl).length)
  refine ⟨spoken A K o evl ++ out, ?_, fun es => ?_⟩
  · rw [spoken_append]
    exact (List.prefix_append_right_inj _).mpr hout
  · rw [List.append_assoc, h, h', sent_append, List.length_append, List.append_assoc, Nat.add_assoc]

theorem Hears.append {evl' evr' : List (Ev Role)} (h : Hears A K evl evr) (h' : Hears A K evl' evr') :
    Hears A K (evl ++ evl') (evr ++ evr') := by
  intro o es
  rw [List.append_assoc, h, h', spoken_append, sent_append, List.length_append, List.append_assoc, Nat.add_assoc]

/-- Only received on the one side, only sent on the other. -/
theorem hears_quiet (hl : evl.all Ev.isRcv) (hr : evr.all Ev.isSnd) : Hears A K evl evr := by
  have hsaid (o : Nat) : spoken A K o evl = [] ∧ sent evl = [] := by
    induction evl with
    | nil => exact ⟨rfl, rfl⟩
    | cons e es ih =>
      cases e with
      | snd r b => simp [Ev.isRcv] at hl
      | rcv r b => exact ih (by simpa [Ev.isRcv] using hl)
  intro o es
  rw [(hsaid o).1, (hsaid o).2]
  induction evr with
  | nil => rfl
  | cons e evr ih =>
    cases e with
    | snd r b => simpa [heard] using ih (by simpa [Ev.isSnd] using hr)
    | rcv r b => simp [Ev.isSnd] at hr

theorem hears_frame {r r' : Role} {cap : Nat} (hr : room r.kind = some cap) (hr' : room r'.kind = some cap)
    {n m : Bytes} (hn : n.length = 8) (hcap : m.length ≤ cap) (hm : cap ≤ FILE_ENCRYPTED_CHUNK_SIZE) :
    Hears A K [.snd r (frame A K n m)] (frameRcvs A r' K n m) := by
  intro o es
  rw [heard_frame hr' hn (hcap.trans hm), spoken_frame hr hn, if_pos hcap]
  simp [spoken, sent]

/-- A frame that may be too long for what the server reads it into. -/
theorem heeds_frame {r r' : Role} {cap : Nat} (hr : room r.kind = some cap) (hr' : room r'.kind = some cap)
    {n m : Bytes} (hn : n.length = 8) (hm : m.length ≤ FILE_ENCRYPTED_CHUNK_SIZE) :
    Heeds A K [.snd r (frame A K n m)] (frameRcvs A r' K n m) := by
  intro o
  refine ⟨if m.length ≤ cap then [(o + (frame A K n m).length, n, m)] else [], ?_, fun es => ?_⟩
  · rw [spoken_frame hr hn]
    split
    · exact List.prefix_append _ _
    · exact List.nil_prefix
  · rw [heard_frame hr' hn hm]
    simp [sent]

theorem hears_blob (act act' j : Nat) (b : Bytes) :
    Hears A K (blobEvs ⟨act, .chunk j⟩ b) (blobRcvs ⟨act', .chunk j⟩ b) := by
  intro o es
  have hs := spoken_blob (A := A) (K := K) act j b o []
  rw [List.append_nil] at hs
  rw [heard_blob, hs, sent_blobEvs]
  rfl

theorem hears_init (act act' : Nat) (nonce : Bytes) {name header salt : Bytes}
    (hname : name.length ≤ PRE_EXT_FILE_NAME_LEN) (hheader : header.length = STREAM_HEADERBYTES)
    (hsalt : salt.length = PWHASH_SALTBYTES) :
    Hears A K (initEvs A K act nonce name header salt) (initRcvs A K act' nonce name header salt) := by
  have h1 : Hears A K [.snd ⟨act, .fileExists⟩ (frame A K (sodiumIncrement nonce) [1])]
      (frameRcvs A ⟨act', .fileExists⟩ K (sodiumIncrement nonce) [1]) :=
    hears_frame rfl rfl (sodiumIncrement_length _) (by decide) (by decide)
  have h2 : Hears A K
      [.snd ⟨act, .fileName⟩ (frame A K (sodiumIncrement (sodiumIncrement nonce)) name)]
      (frameRcvs A ⟨act', .fileName⟩ K (sodiumIncrement (sodiumIncrement nonce)) name) :=
    hears_frame rfl rfl (sodiumIncrement_length _) hname (by decide)
  have h3 : Hears A K
      [.snd ⟨act, .header⟩ (frame A K (sodiumIncrement (sodiumIncrement (sodiumIncrement nonce))) header)]
      (frameRcvs A ⟨act', .header⟩ K (sodiumIncrement (sodiumIncrement (sodiumIncrement nonce))) header) :=
    hears_frame rfl rfl (sodiumIncrement_length _) hheader.le (by decide)
  have h4 : Hears A K
      [.snd ⟨act, .salt⟩
        (frame A K (sodiumIncrement (sodiumIncrement (sodiumIncrement (sodiumIncrement nonce)))) salt)]
      (frameRcvs A ⟨act', .salt⟩ K
        (sodiumIncrement (sodiumIncrement (sodiumIncrement (sodiumIncrement nonce)))) salt) :=
    hears_frame rfl rfl (sodiumIncrement_length _) hsalt.le (by decide)
  exact ((h1.append h2).append h3).append h4

theorem hears_chunks (act act' : Nat) (nonce : Bytes) (j : Nat) (cs : List (Int × Bytes)) :
    Hears A K (chunkEvs A K act nonce j cs) (chunkRcvs A K act' nonce j cs) := by
  induction cs generalizing nonce j with
  | nil => exact hears_quiet rfl rfl
  | cons c cs ih =>
    have h1 : Hears A K [.snd ⟨act, .chunkPrefix j⟩ (frame A K (sodiumIncrement nonce) (i32Enc c.1))]
        (frameRcvs A ⟨act', .chunkPrefix j⟩ K (sodiumIncrement nonce) (i32Enc c.1)) :=
      hears_frame rfl rfl (sodiumIncrement_length _) (i32Enc_length _).le (by decide)
    exact h1.append ((hears_blob act act' j c.2).append (ih (sodiumIncrement nonce) (j + 1)))

end

end Mefsc.L3
