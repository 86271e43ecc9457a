import Mefsc.Core.FileSys
import Mefsc.L2Machine.TwoSlotBuffer
import Mefsc.L3Protocol.Wire

/-!
# The client's agents and handlers

`src/client/authed_entry.cpp` (`Comms_Agent`, `Sender_Agent`,
`Receiver_Agent`) and the handlers and action loop of
`src/client/client.cpp`. `fs` is the client's own file system, `shown` what the
list and delete handlers print, and `accepted` a ghost: the ciphertext chunks
of the last download whose plaintext went to the writer. What the user types is
a list of `UserAction`s; the answer to "perform another action?" is `y` while some are
left.

As on the server, the writer thread of the download is represented by
`writerOutput`.
-/
namespace Mefsc.L3

open L1 L1.SessionEncWrapper L2
open Proc hiding ret recv send act iter bind

/-- What the user is shown. -/
inductive Shown where
  | storedFiles (file_count : Int)
  | name (filename : Bytes)
  | deleted
  | failedToDelete
  deriving DecidableEq, Repr

structure ClientState where
  fs : FS
  original_nonce : Bytes
  file : Option Path
  draws : Nat
  hashes : Nat
  locals : Nat
  shown : List Shown
  accepted : List Bytes

/-- What stays fixed in a session: the keys of `Comms_Agent` and the password
the user logged in with. -/
structure ClientEnv where
  na : Sodium
  host : Host
  client_tx : Bytes
  client_rx : Bytes
  cwd : Path
  password : Bytes

abbrev Client := Proc ClientState Role

/-- mirrors include/authed_entry.h:54-63 -/
structure SenderAgent where
  nonce : Bytes
  key : Bytes
  salt : Bytes
  deriving DecidableEq, Repr

/-- mirrors include/authed_entry.h:90-98 -/
structure ReceiverAgent where
  nonce : Bytes
  deriving DecidableEq, Repr

structure UserAction where
  intention : Int
  file_name : Bytes
  deriving DecidableEq, Repr

/-- How `authed_comms` ends: it returns, or `resize` throws. -/
inductive ClientEnd where
  | returned (status : Int)
  | threw
  deriving DecidableEq, Repr

namespace ClientEnv

variable (C : ClientEnv)

/-! ## Library calls -/

/-- `randombytes_buf` -/
def randombytes (n : Nat) : Client Bytes :=
  modifyGet fun s => (fit n (C.host.rand s.draws), { s with draws := s.draws + 1 })

/-- The memory an uninitialised local starts at. -/
def uninit : Client Bytes :=
  modifyGet fun s => (C.host.stack s.locals, { s with locals := s.locals + 1 })

/-- `crypto_pwhash`: the key, or `none` when it runs out of memory. -/
def cryptoPwhash (salt : Bytes) : Client (Option Bytes) :=
  modifyGet fun s =>
    (if C.host.oom s.hashes then none else some (C.na.pwhash C.password salt),
      { s with hashes := s.hashes + 1 })

/-- `std::ifstream file(file_name)` -/
def openIn (file_name : Bytes) : Client (Option Source) :=
  read fun s => s.fs.openRead C.cwd file_name

/-- The state behind `std::ofstream file(file_name)`. -/
def opened (file_name : Bytes) (s : ClientState) : ClientState :=
  match s.fs.openTrunc C.cwd file_name with
  | none => { s with file := none }
  | some (p, fs) => { s with fs := fs, file := some p }

def openOut (file_name : Bytes) : Client Unit := modify (C.opened file_name)

/-- The state behind `file.write`; nothing happens on a stream that did not
open. -/
def written (b : Bytes) (s : ClientState) : ClientState :=
  match s.file with
  | none => s
  | some p => { s with fs := s.fs.append p b }

def writeOut (b : Bytes) : Client Unit := modify (written b)

def print (x : Shown) : Client Unit := modify fun s => { s with shown := s.shown ++ [x] }

/-- Wrap a message under `client_tx` with `original_nonce` and send it. -/
def sendSession (r : Role) (m : Bytes) : Client Unit := do
  let nonce ← read (·.original_nonce)
  let nonce ← sendFrame C.na.aead r m C.client_tx nonce
  modify fun s => { s with original_nonce := nonce }

/-- mirrors src/client/authed_entry.cpp:41-51 -/
def notifyServerOfAction (act : Nat) (action : Int) : Client Unit :=
  C.sendSession ⟨act, .notice⟩ (i32Enc action)

/-- mirrors src/client/client.cpp:92-104 -/
def sendIntention (act : Nat) (intent : Int) : Client Unit :=
  C.sendSession ⟨act, .intent⟩ (i32Enc intent)

/-! ## Upload -/

/-- `crypto_pwhash` clears the key before it fails.
mirrors src/client/authed_entry.cpp:187-205 -/
def setCrypto (SA : SenderAgent) : Client SenderAgent := do
  let salt ← C.randombytes PWHASH_SALTBYTES
  match ← C.cryptoPwhash salt with
  | none => return { SA with salt := salt, key := List.replicate BOX_SEEDBYTES 0 }
  | some key => return { SA with salt := salt, key := key }

/-- mirrors src/client/authed_entry.cpp:207-215 -/
def newSenderAgent : Client SenderAgent := do
  let nonce ← C.randombytes AEAD_NPUBBYTES
  C.setCrypto ⟨nonce, [], []⟩

/-- The return value and the agent's nonce.
mirrors src/client/authed_entry.cpp:58-93 -/
def initSend (act : Nat) (SA : SenderAgent) (file : Option Source) (file_name header : Bytes) :
    Client (Int × Bytes) := do
  let A := C.na.aead
  let nonce ← sendFrame A ⟨act, .fileExists⟩ [if file.isSome then 1 else 0] C.client_tx SA.nonce
  match file with
  | none => return (1, nonce)
  | some _ =>
    let nonce ← sendFrame A ⟨act, .fileName⟩ file_name C.client_tx nonce
    let nonce ← sendFrame A ⟨act, .header⟩ header C.client_tx nonce
    let nonce ← sendFrame A ⟨act, .salt⟩ SA.salt C.client_tx nonce
    return (0, nonce)

/-- The chunk number, the file, the push state and the agent's nonce. -/
abbrev Sending := Nat × IStream × C.na.ss.State × Bytes

/-- mirrors src/client/authed_entry.cpp:135-167 -/
def sendRound (act : Nat) (g : C.Sending) : Client (C.Sending ⊕ Bytes) := do
  let (j, file, state, nonce) := g
  let (file_chunk, file) := file.read CHUNK_SIZE
  let tag := if file.eofbit then TAG_FINAL else 0
  let (state, buffer) := C.na.ss.push state file_chunk tag
  let nonce ← sendFrame C.na.aead ⟨act, .chunkPrefix j⟩
    (i32Enc (if tag = TAG_FINAL then END_CHUNK else MEAT_CHUNK)) C.client_tx nonce
  let _ ← sendRawBlob ⟨act, .chunk j⟩ buffer
  if file.eofbit then return .inr nonce else return .inl (j + 1, file, state, nonce)

/-- mirrors src/client/authed_entry.cpp:101-175 -/
def encryptAndSendToServer (act : Nat) (SA : SenderAgent) (file_name : Bytes) : Client Int := do
  let SA ← C.setCrypto SA
  let file ← C.openIn file_name
  let r ← C.randombytes STREAM_HEADERBYTES
  let (state, header) := C.na.ss.initPush r SA.key
  let (status, nonce) ← C.initSend act SA file file_name header
  match file with
  | none => return status
  | some src =>
    let _ ← loop (C.sendRound act) (0, IStream.ofSource src, state, nonce)
    return 0

/-- mirrors src/client/client.cpp:131-145 -/
def wtfsHandler (act : Nat) (SA : SenderAgent) (file_name : Bytes) : Client Int := do
  if (← C.encryptAndSendToServer act SA file_name) ≠ 0 then return 1 else return 0

/-! ## Download -/

/-- mirrors src/client/authed_entry.cpp:340-342 -/
def newReceiverAgent : Client ReceiverAgent := do
  return ⟨← C.randombytes AEAD_NPUBBYTES⟩

/-- The return value, or the header and salt buffers for 0.
mirrors src/client/authed_entry.cpp:224-247 -/
def initRead (act : Nat) (header salt : Bytes) : Client (Except Int (Bytes × Bytes)) := do
  let header_wrap ← ofSock ⟨act, .header⟩
  let h := header_wrap.unwrap C.na.aead C.client_rx STREAM_HEADERBYTES header 0
  if h.ret ≠ 0 then return .error 2
  else
    let salt_wrap ← ofSock ⟨act, .salt⟩
    let s := salt_wrap.unwrap C.na.aead C.client_rx PWHASH_SALTBYTES salt 0
    if s.ret ≠ 0 then return .error 1
    else return .ok (h.decrypted_data, s.decrypted_data)

/-- The chunk number, `prefix`, the pull state and the chunks published so
far, each with the ciphertext it came from. -/
abbrev Pulling := Nat × Int × C.na.ss.State × List (Bytes × Bytes)

/-- mirrors src/client/authed_entry.cpp:293-330 -/
def pullRound (act : Nat) (g : C.Pulling) : Client (C.Pulling ⊕ Int × List (Bytes × Bytes)) := do
  let (j, prefix_, state, published) := g
  let prefix_wrap ← ofSock ⟨act, .chunkPrefix j⟩
  -- the result of this unwrap is not looked at
  let u := prefix_wrap.unwrap C.na.aead C.client_rx 4 (i32Enc prefix_) 0
  let prefix_ := i32Dec u.decrypted_data
  match ← recvRawBlob ⟨act, .chunk j⟩ FILE_ENCRYPTED_CHUNK_SIZE with
  | none => return .inr (1, published)
  | some file_chunk =>
    match C.na.ss.pull state file_chunk with
    | none => return .inr (2, published)
    | some (state, slot, _) =>
      let published := published ++ [(file_chunk, slot)]
      if prefix_ ≠ END_CHUNK then return .inl (j + 1, prefix_, state, published)
      else return .inr (0, published)

/-- mirrors src/client/authed_entry.cpp:249-336 -/
def decryptAndReadFromServer (act : Nat) : Client Int := do
  let header ← C.uninit
  let salt ← C.uninit
  match ← C.initRead act (fit STREAM_HEADERBYTES header) (fit PWHASH_SALTBYTES salt) with
  | .error _ => return 1
  | .ok (header, salt) =>
    match ← C.cryptoPwhash salt with
    | none => return 1
    | some key =>
      match C.na.ss.initPull header key with
      | none => return 2
      | some state =>
        let (status, published) ← loop (C.pullRound act) (0, END_CHUNK, state, [])
        writeOut (writerOutput (published.map Prod.snd))
        modify fun s => { s with accepted := published.map Prod.fst }
        return status

/-- `none`: the name is shorter than the extension that `resize` takes off.
mirrors src/client/client.cpp:106-129 -/
def rffsHandler (act : Nat) (RA : ReceiverAgent) (file_name : Bytes) : Client (Option Int) := do
  let _ ← sendFrame C.na.aead ⟨act, .fileName⟩ (file_name ++ [0]) C.client_tx RA.nonce
  if file_name.length < 4 then return none
  else
    C.openOut (file_name.take (file_name.length - 4))
    let _ ← C.decryptAndReadFromServer act
    return some 0

/-! ## List and delete -/

/-- mirrors src/client/client.cpp:159-169 -/
def readNames (act : Nat) (file_count : Int) (i : Nat) : Client (Nat ⊕ Int) := do
  if file_count ≤ i then return .inr 0
  else
    let name_wrap ← ofSock ⟨act, .listName i⟩
    if name_wrap.corrupted then return .inr 1
    else
      let u := name_wrap.unwrap C.na.aead C.client_rx (MAX_FILE_NAME_LENGTH - 1)
        (List.replicate MAX_FILE_NAME_LENGTH 0) 0
      if u.ret ≠ 0 then return .inr 1
      else
        print (.name (cstr u.decrypted_data))
        return .inl (i + 1)

/-- mirrors src/client/client.cpp:147-172 -/
def lffsHandler (act : Nat) : Client Int := do
  let file_count ← C.uninit
  let count_wrap ← ofSock ⟨act, .listCount⟩
  if count_wrap.corrupted then return 1
  else
    let u := count_wrap.unwrap C.na.aead C.client_rx 4 (fit 4 file_count) 0
    if u.ret ≠ 0 then return 1
    else
      print (.storedFiles (i32Dec u.decrypted_data))
      loop (C.readNames act (i32Dec u.decrypted_data)) 0

/-- mirrors src/client/client.cpp:174-202 -/
def dffsHandler (act : Nat) (file_name : Bytes) : Client Int := do
  let nonce ← C.randombytes AEAD_NPUBBYTES
  let _ ← sendFrame C.na.aead ⟨act, .fileName⟩ (file_name ++ [0]) C.client_tx nonce
  let result ← C.uninit
  let result_wrap ← ofSock ⟨act, .deleteResult⟩
  if result_wrap.corrupted then return 1
  else
    let u := result_wrap.unwrap C.na.aead C.client_rx 4 (fit 4 result) 0
    if u.ret ≠ 0 then return 1
    else
      if i32Dec u.decrypted_data = ACK_SUC then print .deleted else print .failedToDelete
      return 0

/-! ## The action loop -/

/-- One round of the loop; `none`: go on with the next action.
mirrors src/client/client.cpp:220-267 -/
def performAction (act : Nat) (a : UserAction) : Client (Option ClientEnd) := do
  C.notifyServerOfAction act NEW_ACTION
  let SA ← C.newSenderAgent
  let RA ← C.newReceiverAgent
  if a.intention = CONFUSION then return some (.returned (-1))
  else if a.intention = READ_FROM_FILESYSTEM then
    C.sendIntention act a.intention
    match ← C.rffsHandler act RA a.file_name with
    | none => return some .threw
    | some _ => return none
  else if a.intention = WRITE_TO_FILESYSTEM then
    C.sendIntention act a.intention
    let _ ← C.wtfsHandler act SA a.file_name
    return none
  else if a.intention = LIST_FILES then
    C.sendIntention act a.intention
    let _ ← C.lffsHandler act
    return none
  else if a.intention = DELETE_FILE then
    C.sendIntention act a.intention
    let _ ← C.dffsHandler act a.file_name
    return none
  else return none

/-- mirrors src/client/client.cpp:219-277, from round `act` on -/
def actionsFrom : Nat → List UserAction → Client ClientEnd
  | act, [] => do
    C.notifyServerOfAction act NO_ACTION
    return .returned 0
  | act, a :: as => do
    match ← C.performAction act a with
    | some e => return e
    | none => actionsFrom (act + 1) as

/-- mirrors src/client/client.cpp:204-278 -/
def authedComms (first : UserAction) (more : List UserAction) : Client ClientEnd :=
  C.actionsFrom 0 (first :: more)

end ClientEnv

end Mefsc.L3
