import Mefsc.L1Encoding.Socket

/-!
# Roles of session frames, and the host a party runs on

A `Role` says what a frame or blob is: the action of the session it belongs to
and its place in that action. The code has no such tag on the wire; the roles
are ghost labels, put by the sender and, independently, by the reader.

`Host` is what a party takes from its surroundings: the results of
`randombytes_buf`, the content of uninitialised locals, and which
`crypto_pwhash` calls run out of memory. The parties count their draws.

`chunkEvs`: a file as both sides put it on the wire, each chunk a prefix frame
and a raw blob.
-/
namespace Mefsc.L3

open L1

inductive Kind where
  | notice | intent | fileExists | fileName | header | salt
  | chunkPrefix (j : Nat) | chunk (j : Nat)
  | listCount | listName (i : Nat) | deleteResult
  deriving DecidableEq, Repr

structure Role where
  action : Nat
  kind : Kind
  deriving DecidableEq, Repr

structure Host where
  rand : Nat → Bytes
  stack : Nat → Bytes
  oom : Nat → Bool

theorem i32_short (v : Int) : (i32Enc v).length ≤ FILE_ENCRYPTED_CHUNK_SIZE := by
  rw [i32Enc_length]; decide

/-! ## Chunks on the wire -/

/-- Prefix values for the chunks of a whole file. -/
def marked : List Bytes → List (Int × Bytes)
  | [] => []
  | [b] => [(END_CHUNK, b)]
  | b :: b' :: bs => (MEAT_CHUNK, b) :: marked (b' :: bs)

/-- What precedes the chunks of an upload, with the sender's nonce before. -/
def initEvs (A : Aead) (tx : Bytes) (act : Nat) (nonce name header salt : Bytes) : List (Ev Role) :=
  let n1 := sodiumIncrement nonce
  let n2 := sodiumIncrement n1
  let n3 := sodiumIncrement n2
  [.snd ⟨act, .fileExists⟩ (frame A tx n1 [1]), .snd ⟨act, .fileName⟩ (frame A tx n2 name),
    .snd ⟨act, .header⟩ (frame A tx n3 header),
    .snd ⟨act, .salt⟩ (frame A tx (sodiumIncrement n3) salt)]

def initRcvs (A : Aead) (tx : Bytes) (act : Nat) (nonce name header salt : Bytes) : List (Ev Role) :=
  let n1 := sodiumIncrement nonce
  let n2 := sodiumIncrement n1
  let n3 := sodiumIncrement n2
  frameRcvs A ⟨act, .fileExists⟩ tx n1 [1] ++ frameRcvs A ⟨act, .fileName⟩ tx n2 name ++
    frameRcvs A ⟨act, .header⟩ tx n3 header ++
    frameRcvs A ⟨act, .salt⟩ tx (sodiumIncrement n3) salt

/-- Chunks `j, j+1, ..` of action `act`, with the sender's nonce before. -/
def chunkEvs (A : Aead) (tx : Bytes) (act : Nat) : Bytes → Nat → List (Int × Bytes) → List (Ev Role)
  | _, _, [] => []
  | nonce, j, (v, b) :: cs =>
    .snd ⟨act, .chunkPrefix j⟩ (frame A tx (sodiumIncrement nonce) (i32Enc v)) ::
      (blobEvs ⟨act, .chunk j⟩ b ++ chunkEvs A tx act (sodiumIncrement nonce) (j + 1) cs)

/-- The same chunks as the other side takes them off the wire. -/
def chunkRcvs (A : Aead) (tx : Bytes) (act : Nat) : Bytes → Nat → List (Int × Bytes) → List (Ev Role)
  | _, _, [] => []
  | nonce, j, (v, b) :: cs =>
    frameRcvs A ⟨act, .chunkPrefix j⟩ tx (sodiumIncrement nonce) (i32Enc v) ++
      (blobRcvs ⟨act, .chunk j⟩ b ++ chunkRcvs A tx act (sodiumIncrement nonce) (j + 1) cs)

/-- A download, with the server's nonce before. -/
def fileEvs (A : Aead) (tx : Bytes) (act : Nat) (nonce header salt : Bytes) (bs : List Bytes) :
    List (Ev Role) :=
  let n1 := sodiumIncrement nonce
  let n2 := sodiumIncrement n1
  .snd ⟨act, .header⟩ (frame A tx n1 header) :: .snd ⟨act, .salt⟩ (frame A tx n2 salt) ::
    chunkEvs A tx act n2 0 (marked bs)

def fileRcvs (A : Aead) (tx : Bytes) (act : Nat) (nonce header salt : Bytes) (bs : List Bytes) :
    List (Ev Role) :=
  let n1 := sodiumIncrement nonce
  let n2 := sodiumIncrement n1
  frameRcvs A ⟨act, .header⟩ tx n1 header ++ (frameRcvs A ⟨act, .salt⟩ tx n2 salt ++
    chunkRcvs A tx act n2 0 (marked bs))

/-- A list answer: the count, then each name in a frame of its own. -/
def nameEvs (A : Aead) (tx : Bytes) (act : Nat) (nonce : Nat → Bytes) : Nat → List Bytes → List (Ev Role)
  | _, [] => []
  | i, n :: ns => .snd ⟨act, .listName i⟩ (frame A tx (nonce i) (n ++ [0])) ::
    nameEvs A tx act nonce (i + 1) ns

def nameRcvs (A : Aead) (tx : Bytes) (act : Nat) (nonce : Nat → Bytes) : Nat → List Bytes → List (Ev Role)
  | _, [] => []
  | i, n :: ns => frameRcvs A ⟨act, .listName i⟩ tx (nonce i) (n ++ [0]) ++
    nameRcvs A tx act nonce (i + 1) ns

theorem nameEvs_append (A : Aead) (tx : Bytes) (act : Nat) (nonce : Nat → Bytes) (i : Nat) (ns ms : List Bytes) :
    nameEvs A tx act nonce i (ns ++ ms) =
      nameEvs A tx act nonce i ns ++ nameEvs A tx act nonce (i + ns.length) ms := by
  induction ns generalizing i with
  | nil => rfl
  | cons n ns ih =>
    have hi : i + (n :: ns).length = i + 1 + ns.length := by simp; omega
    rw [hi]
    simp only [List.cons_append, nameEvs, ih]

theorem nameRcvs_append (A : Aead) (tx : Bytes) (act : Nat) (nonce : Nat → Bytes) (i : Nat) (ns ms : List Bytes) :
    nameRcvs A tx act nonce i (ns ++ ms) =
      nameRcvs A tx act nonce i ns ++ nameRcvs A tx act nonce (i + ns.length) ms := by
  induction ns generalizing i with
  | nil => rfl
  | cons n ns ih =>
    have hi : i + (n :: ns).length = i + 1 + ns.length := by simp; omega
    rw [hi]
    simp only [List.cons_append, nameRcvs, ih, List.append_assoc]

theorem marked_map_snd (bs : List Bytes) : (marked bs).map Prod.snd = bs := by
  induction bs with
  | nil => rfl
  | cons b bs ih =>
    cases bs with
    | nil => rfl
    | cons b' bs => simp only [marked, List.map_cons, ih]

theorem sent_chunkEvs_cons (A : Aead) (tx : Bytes) (act : Nat) (nonce : Bytes) (j : Nat) (v : Int)
    (b : Bytes) (cs : List (Int × Bytes)) :
    sent (chunkEvs A tx act nonce j ((v, b) :: cs)) =
      frame A tx (sodiumIncrement nonce) (i32Enc v) ++
        (blob b ++ sent (chunkEvs A tx act (sodiumIncrement nonce) (j + 1) cs)) := by
  simp [chunkEvs, sent]

/-! ## Bytes without roles -/

theorem sent_initEvs_act (A : Aead) (tx : Bytes) (act act' : Nat) (nonce name header salt : Bytes) :
    sent (initEvs A tx act nonce name header salt) = sent (initEvs A tx act' nonce name header salt) :=
  rfl

theorem sent_chunkEvs_act (A : Aead) (tx : Bytes) (act act' : Nat) (nonce : Bytes) (j : Nat)
    (cs : List (Int × Bytes)) :
    sent (chunkEvs A tx act nonce j cs) = sent (chunkEvs A tx act' nonce j cs) := by
  induction cs generalizing nonce j with
  | nil => rfl
  | cons c cs ih => rw [sent_chunkEvs_cons, sent_chunkEvs_cons, ih]

theorem sent_fileEvs_act (A : Aead) (tx : Bytes) (act act' : Nat) (nonce header salt : Bytes)
    (bs : List Bytes) :
    sent (fileEvs A tx act nonce header salt bs) = sent (fileEvs A tx act' nonce header salt bs) := by
  simp only [fileEvs, sent, sent_chunkEvs_act A tx act act']

theorem sent_nameEvs_act (A : Aead) (tx : Bytes) (act act' : Nat) (nonce : Nat → Bytes) (i : Nat)
    (ns : List Bytes) :
    sent (nameEvs A tx act nonce i ns) = sent (nameEvs A tx act' nonce i ns) := by
  induction ns generalizing i with
  | nil => rfl
  | cons n ns ih => simp only [nameEvs, sent, ih]

/-! ## Roles on both sides -/

@[simp] theorem rtags_blobEvs {ρ : Type} (r : ρ) (b : Bytes) : rtags (blobEvs r b) = [] := by
  unfold blobEvs
  split <;> rfl

@[simp] theorem stags_blobRcvs {ρ : Type} (r : ρ) (b : Bytes) : stags (blobRcvs r b) = [] := by
  unfold blobRcvs
  split <;> rfl

theorem rtags_blobRcvs {ρ : Type} (r : ρ) (b : Bytes) : rtags (blobRcvs r b) = stags (blobEvs r b) := by
  unfold blobRcvs blobEvs
  split <;> simp [rtags, stags]

@[simp] theorem stags_frameRcvs {ρ : Type} (A : Aead) (r : ρ) (tx n m : Bytes) :
    stags (frameRcvs A r tx n m) = [] := rfl

theorem rtags_frameRcvs {ρ : Type} (A : Aead) (r : ρ) (tx n m : Bytes) :
    rtags (frameRcvs A r tx n m) = stags [Ev.snd r (frame A tx n m)] := by
  simp only [frameRcvs, frame, rtags, stags, List.length_append, List.replicate_add,
    List.append_assoc, List.append_nil]

@[simp] theorem sent_chunkRcvs (A : Aead) (tx : Bytes) (act : Nat) (nonce : Bytes) (j : Nat)
    (cs : List (Int × Bytes)) : sent (chunkRcvs A tx act nonce j cs) = [] := by
  induction cs generalizing nonce j with
  | nil => rfl
  | cons c cs ih => simp [chunkRcvs, ih]

@[simp] theorem stags_chunkRcvs (A : Aead) (tx : Bytes) (act : Nat) (nonce : Bytes) (j : Nat)
    (cs : List (Int × Bytes)) : stags (chunkRcvs A tx act nonce j cs) = [] := by
  induction cs generalizing nonce j with
  | nil => rfl
  | cons c cs ih => simp [chunkRcvs, ih]

@[simp] theorem rtags_chunkEvs (A : Aead) (tx : Bytes) (act : Nat) (nonce : Bytes) (j : Nat)
    (cs : List (Int × Bytes)) : rtags (chunkEvs A tx act nonce j cs) = [] := by
  induction cs generalizing nonce j with
  | nil => rfl
  | cons c cs ih => simp [chunkEvs, rtags, ih]

/-- Read by the matching reads, every byte of a transfer has its sender's
role. -/
theorem rtags_chunkRcvs (A : Aead) (tx : Bytes) (act : Nat) (nonce : Bytes) (j : Nat)
    (cs : List (Int × Bytes)) :
    rtags (chunkRcvs A tx act nonce j cs) = stags (chunkEvs A tx act nonce j cs) := by
  induction cs generalizing nonce j with
  | nil => rfl
  | cons c cs ih => simp [chunkRcvs, chunkEvs, rtags_frameRcvs, rtags_blobRcvs, stags, ih]

section
variable (A : Aead) (tx : Bytes) (act : Nat)

@[simp] theorem sent_initRcvs (nonce name header salt : Bytes) :
    sent (initRcvs A tx act nonce name header salt) = [] := by
  simp [initRcvs]

@[simp] theorem stags_initRcvs (nonce name header salt : Bytes) :
    stags (initRcvs A tx act nonce name header salt) = [] := by
  simp [initRcvs]

@[simp] theorem rtags_initEvs (nonce name header salt : Bytes) :
    rtags (initEvs A tx act nonce name header salt) = [] := rfl

theorem rtags_initRcvs (nonce name header salt : Bytes) :
    rtags (initRcvs A tx act nonce name header salt) =
      stags (initEvs A tx act nonce name header salt) := by
  simp [initRcvs, initEvs, rtags_frameRcvs, stags]

@[simp] theorem sent_fileRcvs (nonce header salt : Bytes) (bs : List Bytes) :
    sent (fileRcvs A tx act nonce header salt bs) = [] := by
  simp [fileRcvs]

@[simp] theorem stags_fileRcvs (nonce header salt : Bytes) (bs : List Bytes) :
    stags (fileRcvs A tx act nonce header salt bs) = [] := by
  simp [fileRcvs]

@[simp] theorem rtags_fileEvs (nonce header salt : Bytes) (bs : List Bytes) :
    rtags (fileEvs A tx act nonce header salt bs) = [] := by
  simp [fileEvs, rtags]

theorem rtags_fileRcvs (nonce header salt : Bytes) (bs : List Bytes) :
    rtags (fileRcvs A tx act nonce header salt bs) =
      stags (fileEvs A tx act nonce header salt bs) := by
  simp [fileRcvs, fileEvs, rtags_frameRcvs, rtags_chunkRcvs, stags]

@[simp] theorem sent_nameRcvs (nonce : Nat → Bytes) (i : Nat) (ns : List Bytes) :
    sent (nameRcvs A tx act nonce i ns) = [] := by
  induction ns generalizing i with
  | nil => rfl
  | cons n ns ih => simp [nameRcvs, ih]

@[simp] theorem stags_nameRcvs (nonce : Nat → Bytes) (i : Nat) (ns : List Bytes) :
    stags (nameRcvs A tx act nonce i ns) = [] := by
  induction ns generalizing i with
  | nil => rfl
  | cons n ns ih => simp [nameRcvs, ih]

@[simp] theorem rtags_nameEvs (nonce : Nat → Bytes) (i : Nat) (ns : List Bytes) :
    rtags (nameEvs A tx act nonce i ns) = [] := by
  induction ns generalizing i with
  | nil => rfl
  | cons n ns ih => simp [nameEvs, rtags, ih]

theorem rtags_nameRcvs (nonce : Nat → Bytes) (i : Nat) (ns : List Bytes) :
    rtags (nameRcvs A tx act nonce i ns) = stags (nameEvs A tx act nonce i ns) := by
  induction ns generalizing i with
  | nil => rfl
  | cons n ns ih => simp [nameRcvs, nameEvs, rtags_frameRcvs, stags, ih]

end

end Mefsc.L3
