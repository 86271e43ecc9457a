import Mefsc.Core.FileSys
import Mefsc.L2Machine.TwoSlotBuffer
import Mefsc.L3Protocol.Wire

/-!
# The server's file handlers

`src/server/read_write_handlers.cpp`: `FS_Operator` and its handlers, and the
dispatch loop of `handle_conn` behind them. Every handler is a process over
the connection; `fs` is the server's file system.

`names` is a ghost: the strings the handlers put behind `user_dir` when they
open, truncate or remove a file. `std::filesystem` calls that throw end the
process (nothing catches), which the peer sees as the end of the stream.

The writer thread is represented by `writerOutput` (see `TwoSlotBuffer`).
-/
namespace Mefsc.L3

open L1 L1.SessionEncWrapper L2
open Proc hiding ret recv send act iter bind

/-- mirrors include/read_write_handlers.h:8-13, with the server's file system,
the file the upload handler has open, and the draw counters. -/
structure FsOperator where
  fs : FS
  nonce : Bytes
  file : Option Path
  draws : Nat
  locals : Nat
  names : List Bytes

/-- What stays fixed in a session. -/
structure ServerEnv where
  na : Sodium
  host : Host
  server_rx : Bytes
  server_tx : Bytes
  cwd : Path
  username : Bytes

abbrev Server := Proc FsOperator Role

namespace ServerEnv

variable (E : ServerEnv)

/-- mirrors src/server/read_write_handlers.cpp:23 -/
def user_dir : Bytes := base_dir ++ E.username ++ [slash]

/-! ## Library calls -/

/-- `randombytes_buf` -/
def randombytes (n : Nat) : Server Bytes :=
  modifyGet fun s => (fit n (E.host.rand s.draws), { s with draws := s.draws + 1 })

def freshNonce : Server Unit := do
  let n ← E.randombytes AEAD_NPUBBYTES
  modify fun s => { s with nonce := n }

/-- The memory an uninitialised local starts at. -/
def uninit : Server Bytes :=
  modifyGet fun s => (E.host.stack s.locals, { s with locals := s.locals + 1 })

/-- Wrap a message under `server_tx` and send it. -/
def sendSession (r : Role) (m : Bytes) : Server Unit := do
  let nonce ← read (·.nonce)
  let nonce ← sendFrame E.na.aead r m E.server_tx nonce
  modify fun s => { s with nonce := nonce }

/-- The state behind `std::ofstream file(user_dir + name)`. -/
def opened (name : Bytes) (s : FsOperator) : FsOperator :=
  match s.fs.openTrunc E.cwd (E.user_dir ++ name) with
  | none => { s with file := none, names := s.names ++ [name] }
  | some (p, fs) => { s with fs := fs, file := some p, names := s.names ++ [name] }

def openOut (name : Bytes) : Server Unit := modify (E.opened name)

/-- The state behind `file.write`; nothing happens on a stream that did not
open. -/
def written (b : Bytes) (s : FsOperator) : FsOperator :=
  match s.file with
  | none => s
  | some p => { s with fs := s.fs.append p b }

def writeOut (b : Bytes) : Server Unit := modify (written b)

/-- `std::ifstream file(user_dir + name)` -/
def openIn (name : Bytes) : Server (Option Source) :=
  modifyGet fun s =>
    (s.fs.openRead E.cwd (E.user_dir ++ name), { s with names := s.names ++ [name] })

/-- `std::filesystem::remove(user_dir + name)` -/
def removeFile (name : Bytes) : Server (Except Errno Bool) :=
  modifyGet fun s =>
    match s.fs.remove E.cwd (E.user_dir ++ name) with
    | .error e => (.error e, { s with names := s.names ++ [name] })
    | .ok (b, fs) => (.ok b, { s with fs := fs, names := s.names ++ [name] })

/-- A pass of `std::filesystem::directory_iterator(user_dir)` -/
def listDir : Server (Except Errno (List Name)) := read fun s => s.fs.list E.cwd E.user_dir

/-- `std::filesystem::create_directories(user_dir)` -/
def makeUserDir : Server (Except Errno Unit) :=
  modifyGet fun s =>
    match s.fs.createDirectories E.cwd (splitSlash E.user_dir) with
    | .error e => (.error e, s)
    | .ok fs => (.ok (), { s with fs := fs })

/-! ## Upload -/

/-- `buf[n] = '\0'` -/
def terminate (buf : Bytes) (n : Nat) : Bytes := buf.take n ++ 0 :: buf.drop (n + 1)

/-- The return value, or the name, header and salt buffers for 0. `file_exists` is a
`bool`: a byte other than 0 and 1 in it is undefined behaviour, and counts as true
here.
mirrors src/server/read_write_handlers.cpp:45-125 -/
def initRead (act : Nat) (file_name_buf header salt : Bytes) :
    Server (Except Int (Bytes × Bytes × Bytes)) := do
  let confirm_wrap ← ofSock ⟨act, .fileExists⟩
  let c := confirm_wrap.unwrap E.na.aead E.server_rx 1 [0] 0
  if c.ret ≠ 0 then return .error 6
  else if c.decrypted_data.take 1 = [0] then return .error 5
  else
    let file_name_wrap ← ofSock ⟨act, .fileName⟩
    if file_name_wrap.corrupted then return .error 9
    else
      let len0 ← E.uninit
      let f := file_name_wrap.unwrap E.na.aead E.server_rx PRE_EXT_FILE_NAME_LEN file_name_buf
        (leDec (fit 8 len0))
      -- only the overflow code stops here; the length may then be what it was
      if f.ret = 2 then return .error 8
      else if MAX_FILE_NAME_LENGTH < (f.decrypted_data_len + ext.length) % 2 ^ 64 then
        return .error 7
      else
        let file_name_buf := terminate f.decrypted_data f.decrypted_data_len
        let header_wrap ← ofSock ⟨act, .header⟩
        if header_wrap.corrupted then return .error 4
        else
          let h := header_wrap.unwrap E.na.aead E.server_rx STREAM_HEADERBYTES header 0
          if h.ret ≠ 0 ∧ h.wrapper.corrupted = true then return .error 3
          else
            let salt_wrap ← ofSock ⟨act, .salt⟩
            if salt_wrap.corrupted then return .error 2
            else
              let s := salt_wrap.unwrap E.na.aead E.server_rx PWHASH_SALTBYTES salt 0
              if s.ret ≠ 0 then return .error 1
              else return .ok (file_name_buf, h.decrypted_data, s.decrypted_data)

/-- The chunk number, `prefix` and the chunks published so far. -/
abbrev Receiving := Nat × Int × List Bytes

/-- mirrors src/server/read_write_handlers.cpp:173-208 -/
def wtfsRound (act : Nat) (g : Receiving) : Server (Receiving ⊕ Int × List Bytes) := do
  let (j, prefix_, published) := g
  let prefix_wrap ← ofSock ⟨act, .chunkPrefix j⟩
  if prefix_wrap.corrupted then return .inr (0, published)
  else
    let u := prefix_wrap.unwrap E.na.aead E.server_rx 4 (i32Enc prefix_) 0
    if u.ret ≠ 0 then return .inr (0, published)
    else
      let prefix_ := i32Dec u.decrypted_data
      match ← recvRawBlob ⟨act, .chunk j⟩ FILE_ENCRYPTED_CHUNK_SIZE with
      | none => return .inr (1, published)
      | some b =>
        let published := published ++ [b]
        if prefix_ = END_CHUNK then return .inr (0, published)
        else if prefix_ = MEAT_CHUNK then return .inl (j + 1, prefix_, published)
        else return .inr (0, published)

/-- mirrors src/server/read_write_handlers.cpp:127-214 -/
def wtfsHandlerServer (act : Nat) : Server Int := do
  let file_name_buf ← E.uninit
  let header ← E.uninit
  let salt ← E.uninit
  match ← E.initRead act file_name_buf (fit STREAM_HEADERBYTES header) (fit PWHASH_SALTBYTES salt) with
  | .error _ => return 1
  | .ok (file_name_buf, header, salt) =>
    E.openOut (cstr file_name_buf ++ ext)
    writeOut header
    writeOut salt
    let (status, published) ← loop (E.wtfsRound act) (0, END_CHUNK, [])
    writeOut (writerOutput published)
    return status

/-! ## Download -/

/-- mirrors src/server/read_write_handlers.cpp:276-296 -/
def rffsRound (act : Nat) (g : Nat × IStream) : Server ((Nat × IStream) ⊕ Int) := do
  let (file_chunk, file) := g.2.read FILE_ENCRYPTED_CHUNK_SIZE
  E.sendSession ⟨act, .chunkPrefix g.1⟩ (i32Enc (if file.eofbit then END_CHUNK else MEAT_CHUNK))
  let _ ← sendRawBlob ⟨act, .chunk g.1⟩ file_chunk
  if file.eofbit then return .inr 0 else return .inl (g.1 + 1, file)

/-- mirrors src/server/read_write_handlers.cpp:247-298 -/
def sendFile (act : Nat) (src : Source) : Server Int := do
  let header ← E.uninit
  let salt ← E.uninit
  let (h, file) := (IStream.ofSource src).read STREAM_HEADERBYTES
  E.sendSession ⟨act, .header⟩ (blit h (fit STREAM_HEADERBYTES header))
  let (s, file) := file.read PWHASH_SALTBYTES
  E.sendSession ⟨act, .salt⟩ (blit s (fit PWHASH_SALTBYTES salt))
  loop (E.rffsRound act) (0, file)

/-- mirrors src/server/read_write_handlers.cpp:216-299 -/
def rffsHandlerServer (act : Nat) : Server Int := do
  E.freshNonce
  let file_name_buf ← E.uninit
  let encrypted_file_name ← ofSock ⟨act, .fileName⟩
  if encrypted_file_name.corrupted then return 3
  else
    let u := encrypted_file_name.unwrap E.na.aead E.server_rx PRE_EXT_FILE_NAME_LEN file_name_buf 0
    if u.ret ≠ 0 then return 2
    else
      match ← E.openIn (cstr u.decrypted_data) with
      | none => return 1
      | some src => E.sendFile act src

/-! ## List and delete -/

/-- mirrors src/server/read_write_handlers.cpp:314-321 -/
def sendNames (act : Nat) : Nat → List Name → Server Unit
  | _, [] => return ()
  | i, filename :: ns => do
    E.freshNonce
    E.sendSession ⟨act, .listName i⟩ (filename ++ [0])
    sendNames act (i + 1) ns

/-- mirrors src/server/read_write_handlers.cpp:301-324 -/
def lffsHandlerServer (act : Nat) : Server (Except Errno Int) := do
  match ← E.listDir with
  | .error e => return .error e
  | .ok entries =>
    E.freshNonce
    E.sendSession ⟨act, .listCount⟩ (i32Enc entries.length)
    match ← E.listDir with
    | .error e => return .error e
    | .ok entries =>
      E.sendNames act 0 entries
      return .ok 0

/-- mirrors src/server/read_write_handlers.cpp:326-353 -/
def dffsHandlerServer (act : Nat) : Server (Except Errno Int) := do
  E.freshNonce
  let name_wrap ← ofSock ⟨act, .fileName⟩
  if name_wrap.corrupted then return .ok 2
  else
    let u := name_wrap.unwrap E.na.aead E.server_rx PRE_EXT_FILE_NAME_LEN
      (List.replicate MAX_FILE_NAME_LENGTH 0) 0
    if u.ret ≠ 0 then return .ok 1
    else
      match ← E.removeFile (cstr u.decrypted_data) with
      | .error e => return .error e
      | .ok removed =>
        E.freshNonce
        E.sendSession ⟨act, .deleteResult⟩ (i32Enc (if removed then ACK_SUC else ACK_FAIL))
        return .ok 0

/-! ## Dispatch -/

/-- mirrors src/server/read_write_handlers.cpp:355-377 -/
def receiveNoticeOfNewAction (act : Nat) : Server Int := do
  let notice ← E.uninit
  let notice_wrap ← ofSock ⟨act, .notice⟩
  if notice_wrap.corrupted then return 3
  else
    let u := notice_wrap.unwrap E.na.aead E.server_rx 4 (fit 4 notice) 0
    if u.ret ≠ 0 then return 2
    else if i32Dec u.decrypted_data ≠ NEW_ACTION then return 1
    else return 0

/-- mirrors src/server/read_write_handlers.cpp:379-397 -/
def readIntent (act : Nat) : Server Int := do
  let intent ← E.uninit
  let intent_wrap ← ofSock ⟨act, .intent⟩
  if intent_wrap.corrupted then return INVALID_READ_INTENT
  else
    let u := intent_wrap.unwrap E.na.aead E.server_rx 4 (fit 4 intent) 0
    if u.ret ≠ 0 then return INVALID_READ_INTENT
    else return i32Dec u.decrypted_data

/-- How the connection ends: closed, or by an exception nothing catches. -/
inductive Ended where
  | closed
  | threw (e : Errno)
  deriving DecidableEq, Repr

/-- mirrors src/server/server.cpp:161-175 -/
def dispatch (act : Nat) (intent : Int) : Server (Except Errno Unit) := do
  if intent = READ_FROM_FILESYSTEM then
    let _ ← E.rffsHandlerServer act
    return .ok ()
  else if intent = WRITE_TO_FILESYSTEM then
    let _ ← E.wtfsHandlerServer act
    return .ok ()
  else if intent = LIST_FILES then return (← E.lffsHandlerServer act).map fun _ => ()
  else if intent = DELETE_FILE then return (← E.dffsHandlerServer act).map fun _ => ()
  else return .ok ()

/-- mirrors src/server/server.cpp:144-176; `act` counts the rounds -/
def serveRound (act : Nat) : Server (Nat ⊕ Ended) := do
  if (← E.receiveNoticeOfNewAction act) ≠ 0 then return .inr .closed
  else
    let intent ← E.readIntent act
    if intent = INVALID_READ_INTENT then return .inl (act + 1)
    else
      match ← E.dispatch act intent with
      | .error e => return .inr (.threw e)
      | .ok () => return .inl (act + 1)

/-- mirrors src/server/server.cpp:142-176 -/
def serve : Server Ended := loop E.serveRound 0

/-- The constructor of `FS_Operator`, then the loop.
mirrors src/server/read_write_handlers.cpp:18-35 and src/server/server.cpp:139-176 -/
def session : Server Ended := do
  match ← E.makeUserDir with
  | .error e => return .threw e
  | .ok () =>
    E.freshNonce
    E.serve

end ServerEnv

end Mefsc.L3
