import Mefsc.Core.Halting
import Mefsc.L3Protocol.Server

/-!
# Going through the server's handlers

A predicate of processes that goes through sequencing, holds of the transfers
and of the operations on the server's files holds of the handlers: one lemma
for each. `Parts` are the operations that leave the files alone, `Files` all of
them.

The download handler is also given with the opening of a file as a parameter
(`rffsVia` and what is above it), since a file that opens may still fail when it
is read: `openInOn φ` opens a file whose reads fail from byte `φ i` on, for the
`i`-th name the session uses. With `E.openIn` this is the handler of `Server`
(`sessionVia_openIn`).
-/
namespace Mefsc.L3

open L1 L1.SessionEncWrapper L2
open Proc hiding ret recv send act iter bind

/-! ## Transfers -/

section
variable {σ ρ : Type} {P : {α : Type} → Proc σ ρ α → Prop}

theorem closed_ofSock (hP : Closed P) (r : ρ) : P (ofSock r : Proc σ ρ SessionEncWrapper) := by
  refine hP.bind (hP.recvN r 8) fun o => ?_
  cases o with
  | none => exact hP.pure _
  | some lenBytes =>
    refine Closed.ite (hP.pure _) ?_
    refine hP.bind (hP.recvN r _) fun o => ?_
    cases o with
    | none => exact hP.pure _
    | some nonce =>
      refine hP.bind (hP.recvN r _) fun o => ?_
      cases o <;> exact hP.pure _

theorem closed_recvRawBlob (hP : Closed P) (r : ρ) (cap : Nat) :
    P (recvRawBlob r cap : Proc σ ρ (Option Bytes)) := by
  refine hP.bind (hP.recvN r 8) fun o => ?_
  cases o with
  | none => exact hP.pure _
  | some nBytes =>
    refine Closed.ite (hP.pure _) ?_
    exact Closed.ite (hP.pure _) (hP.recvN r _)

theorem closed_sendRawBlob (hP : Closed P) (r : ρ) (b : Bytes) :
    P (sendRawBlob r b : Proc σ ρ Int) := by
  refine hP.bind (hP.sendB r _) fun o => ?_
  refine Closed.ite (hP.pure _) ?_
  refine Closed.ite (hP.pure _) ?_
  refine hP.bind (hP.sendB r _) fun o => ?_
  exact Closed.ite (hP.pure _) (hP.pure _)

theorem closed_sendFrame (hP : Closed P) (A : Aead) (r : ρ) (m tx nonce : Bytes) :
    P (sendFrame A r m tx nonce : Proc σ ρ Bytes) := by
  refine hP.bind ?_ fun _ => hP.pure _
  refine hP.bind (hP.sendB r _) fun o => ?_
  cases o <;> exact hP.pure _

end

/-! ## Reads that fail -/

/-- The first `k` bytes can be read. -/
def failing : Option Nat → Source → Source
  | none, src => src
  | some k, src => ⟨src.bytes.take k, true⟩

namespace ServerEnv

variable (E : ServerEnv)

/-- `std::ifstream file(user_dir + name)` on a disk that fails. -/
def openInOn (φ : Nat → Option Nat) (name : Bytes) : Server (Option Source) :=
  modifyGet fun s =>
    ((s.fs.openRead E.cwd (E.user_dir ++ name)).map (failing (φ s.names.length)),
      { s with names := s.names ++ [name] })

theorem openInOn_none : E.openInOn (fun _ => none) = E.openIn := by
  have hid : failing none = id := rfl
  funext name
  simp [openInOn, openIn, hid]

section
variable (openIn : Bytes → Server (Option Source))

/-- mirrors src/server/read_write_handlers.cpp:216-299 -/
def rffsVia (act : Nat) : Server Int := do
  E.freshNonce
  let file_name_buf ← E.uninit
  let encrypted_file_name ← ofSock ⟨act, .fileName⟩
  if encrypted_file_name.corrupted then return 3
  else
    let u := encrypted_file_name.unwrap E.na.aead E.server_rx PRE_EXT_FILE_NAME_LEN file_name_buf 0
    if u.ret ≠ 0 then return 2
    else
      match ← openIn (cstr u.decrypted_data) with
      | none => return 1
      | some src => E.sendFile act src

/-- mirrors src/server/server.cpp:161-175 -/
def dispatchVia (act : Nat) (intent : Int) : Server (Except Errno Unit) := do
  if intent = READ_FROM_FILESYSTEM then
    let _ ← E.rffsVia openIn act
    return .ok ()
  else if intent = WRITE_TO_FILESYSTEM then
    let _ ← E.wtfsHandlerServer act
    return .ok ()
  else if intent = LIST_FILES then return (← E.lffsHandlerServer act).map fun _ => ()
  else if intent = DELETE_FILE then return (← E.dffsHandlerServer act).map fun _ => ()
  else return .ok ()

/-- mirrors src/server/server.cpp:144-176 -/
def serveRoundVia (act : Nat) : Server (Nat ⊕ Ended) := do
  if (← E.receiveNoticeOfNewAction act) ≠ 0 then return .inr .closed
  else
    let intent ← E.readIntent act
    if intent = INVALID_READ_INTENT then return .inl (act + 1)
    else
      match ← E.dispatchVia openIn act intent with
      | .error e => return .inr (.threw e)
      | .ok () => return .inl (act + 1)

/-- mirrors src/server/server.cpp:142-176 -/
def serveVia : Server Ended := loop (E.serveRoundVia openIn) 0

/-- mirrors src/server/read_write_handlers.cpp:18-35 and src/server/server.cpp:139-176 -/
def sessionVia : Server Ended := do
  match ← E.makeUserDir with
  | .error e => return .threw e
  | .ok () =>
    E.freshNonce
    E.serveVia openIn

end

theorem sessionVia_openIn : E.sessionVia E.openIn = E.session := rfl

/-! ## Handlers -/

/-- The operations that leave files and strings alone, and do not look at the
files. -/
structure Parts (P : {α : Type} → Server α → Prop) : Prop extends Closed P where
  frame : ∀ {β : Type} {f : FsOperator → β × FsOperator},
    (∀ s gs, f { s with fs := gs } = ((f s).1, { (f s).2 with fs := gs })) →
    (∀ s, (f s).2.fs = s.fs ∧ (f s).2.file = s.file ∧ (f s).2.names = s.names) →
    P (modifyGet f : Server β)

variable {E} {P : {α : Type} → Server α → Prop}

theorem Parts.uninit (hP : Parts P) : P E.uninit :=
  hP.frame (fun _ _ => rfl) fun _ => ⟨rfl, rfl, rfl⟩

theorem Parts.freshNonce (hP : Parts P) : P E.freshNonce :=
  hP.bind (hP.frame (fun _ _ => rfl) fun _ => ⟨rfl, rfl, rfl⟩) fun _ =>
    hP.frame (fun _ _ => rfl) fun _ => ⟨rfl, rfl, rfl⟩

theorem Parts.sendSession (hP : Parts P) (r : Role) (m : Bytes) : P (E.sendSession r m) := by
  refine hP.bind (hP.frame (fun _ _ => rfl) fun _ => ⟨rfl, rfl, rfl⟩) fun nonce => ?_
  refine hP.bind (closed_sendFrame hP.toClosed _ r m _ nonce) fun nonce => ?_
  exact hP.frame (fun _ _ => rfl) fun _ => ⟨rfl, rfl, rfl⟩

theorem Parts.initRead (hP : Parts P) (act : Nat) (b h sa : Bytes) : P (E.initRead act b h sa) := by
  refine hP.bind (closed_ofSock hP.toClosed _) fun w => ?_
  refine Closed.ite (hP.pure _) ?_
  refine Closed.ite (hP.pure _) ?_
  refine hP.bind (closed_ofSock hP.toClosed _) fun w => ?_
  refine Closed.ite (hP.pure _) ?_
  refine hP.bind hP.uninit fun len0 => ?_
  refine Closed.ite (hP.pure _) ?_
  refine Closed.ite (hP.pure _) ?_
  refine hP.bind (closed_ofSock hP.toClosed _) fun w => ?_
  refine Closed.ite (hP.pure _) ?_
  refine Closed.ite (hP.pure _) ?_
  refine hP.bind (closed_ofSock hP.toClosed _) fun w => ?_
  refine Closed.ite (hP.pure _) ?_
  exact Closed.ite (hP.pure _) (hP.pure _)

/-- A round of an upload is transfers alone. -/
theorem closed_wtfsRound (hP : Closed P) (act : Nat) (g : Receiving) : P (E.wtfsRound act g) := by
  refine hP.bind (closed_ofSock hP _) fun w => ?_
  refine Closed.ite (hP.pure _) ?_
  refine Closed.ite (hP.pure _) ?_
  refine hP.bind (closed_recvRawBlob hP _ _) fun o => ?_
  cases o with
  | none => exact hP.pure _
  | some b =>
    refine Closed.ite (hP.pure _) ?_
    exact Closed.ite (hP.pure _) (hP.pure _)

theorem Parts.wtfsRound (hP : Parts P) (act : Nat) (g : Receiving) : P (E.wtfsRound act g) :=
  closed_wtfsRound hP.toClosed act g

theorem Parts.rffsRound (hP : Parts P) (act : Nat) (g : Nat × IStream) : P (E.rffsRound act g) := by
  unfold ServerEnv.rffsRound
  rcases g.2.read FILE_ENCRYPTED_CHUNK_SIZE with ⟨file_chunk, file⟩
  refine hP.bind (hP.sendSession _ _) fun _ => ?_
  refine hP.bind (closed_sendRawBlob hP.toClosed _ _) fun _ => ?_
  exact Closed.ite (hP.pure _) (hP.pure _)

theorem Parts.sendNames (hP : Parts P) (act i : Nat) (ns : List Name) : P (E.sendNames act i ns) := by
  induction ns generalizing i with
  | nil => exact hP.pure _
  | cons n ns ih =>
    refine hP.bind hP.freshNonce fun _ => ?_
    exact hP.bind (hP.sendSession _ _) fun _ => ih (i + 1)

theorem Parts.lffsHandlerServer (hP : Parts P) (hl : P E.listDir) (act : Nat) :
    P (E.lffsHandlerServer act) := by
  refine hP.bind hl fun x => ?_
  cases x with
  | error e => exact hP.pure _
  | ok entries =>
    refine hP.bind hP.freshNonce fun _ => ?_
    refine hP.bind (hP.sendSession _ _) fun _ => ?_
    refine hP.bind hl fun x => ?_
    cases x with
    | error e => exact hP.pure _
    | ok entries => exact hP.bind (hP.sendNames act 0 entries) fun _ => hP.pure _

theorem Parts.dffsHandlerServer (hP : Parts P) (hr : ∀ n, P (E.removeFile n)) (act : Nat) :
    P (E.dffsHandlerServer act) := by
  refine hP.bind hP.freshNonce fun _ => ?_
  refine hP.bind (closed_ofSock hP.toClosed _) fun w => ?_
  refine Closed.ite (hP.pure _) ?_
  refine Closed.ite (hP.pure _) ?_
  refine hP.bind (hr _) fun x => ?_
  cases x with
  | error e => exact hP.pure _
  | ok removed =>
    refine hP.bind hP.freshNonce fun _ => ?_
    exact hP.bind (hP.sendSession _ _) fun _ => hP.pure _

theorem Parts.receiveNoticeOfNewAction (hP : Parts P) (act : Nat) :
    P (E.receiveNoticeOfNewAction act) := by
  refine hP.bind hP.uninit fun _ => ?_
  refine hP.bind (closed_ofSock hP.toClosed _) fun w => ?_
  refine Closed.ite (hP.pure _) ?_
  refine Closed.ite (hP.pure _) ?_
  exact Closed.ite (hP.pure _) (hP.pure _)

theorem Parts.readIntent (hP : Parts P) (act : Nat) : P (E.readIntent act) := by
  refine hP.bind hP.uninit fun _ => ?_
  refine hP.bind (closed_ofSock hP.toClosed _) fun w => ?_
  refine Closed.ite (hP.pure _) ?_
  exact Closed.ite (hP.pure _) (hP.pure _)

/-- Sends and receives leave all files alone. -/
theorem moves_parts : Parts (fun {_} p => Moves (fun s t : FsOperator => t.fs = s.fs) p) where
  toClosed := closed_moves (fun _ => rfl) fun h1 h2 => h2.trans h1
  frame _ hf := moves_modifyGet fun s => (hf s).1

/-- Loops too, and the operations on files other than `remove`. -/
structure Files (E : ServerEnv) (openIn : Bytes → Server (Option Source))
    (P : {α : Type} → Server α → Prop) : Prop extends Parts P where
  loop : ∀ {γ β : Type} {body : γ → Server (γ ⊕ β)}, (∀ g, P (body g)) → ∀ g, P (loop body g)
  openOut : ∀ n, P (E.openOut n)
  writeOut : ∀ b, P (writeOut b)
  openIn : ∀ n, P (openIn n)
  listDir : P E.listDir

section
variable {openIn : Bytes → Server (Option Source)}

theorem Files.wtfsHandlerServer (hP : Files E openIn P) (act : Nat) : P (E.wtfsHandlerServer act) := by
  refine hP.bind hP.uninit fun _ => ?_
  refine hP.bind hP.uninit fun _ => ?_
  refine hP.bind hP.uninit fun _ => ?_
  refine hP.bind (hP.initRead act _ _ _) fun x => ?_
  cases x with
  | error e => exact hP.pure _
  | ok x =>
    refine hP.bind (hP.openOut _) fun _ => ?_
    refine hP.bind (hP.writeOut _) fun _ => ?_
    refine hP.bind (hP.writeOut _) fun _ => ?_
    refine hP.bind (hP.loop (hP.wtfsRound act) _) fun x => ?_
    exact hP.bind (hP.writeOut _) fun _ => hP.pure _

theorem Files.rffsVia (hP : Files E openIn P) (act : Nat) : P (E.rffsVia openIn act) := by
  refine hP.bind hP.freshNonce fun _ => ?_
  refine hP.bind hP.uninit fun _ => ?_
  refine hP.bind (closed_ofSock hP.toClosed _) fun w => ?_
  refine Closed.ite (hP.pure _) ?_
  refine Closed.ite (hP.pure _) ?_
  refine hP.bind (hP.openIn _) fun o => ?_
  cases o with
  | none => exact hP.pure _
  | some src =>
    refine hP.bind hP.uninit fun _ => ?_
    refine hP.bind hP.uninit fun _ => ?_
    refine hP.bind (hP.sendSession _ _) fun _ => ?_
    refine hP.bind (hP.sendSession _ _) fun _ => ?_
    exact hP.loop (hP.rffsRound act) _

theorem Files.dispatchVia (hP : Files E openIn P) (hr : ∀ n, P (E.removeFile n)) (act : Nat)
    (intent : Int) : P (E.dispatchVia openIn act intent) := by
  unfold ServerEnv.dispatchVia
  split
  · exact hP.bind (hP.rffsVia act) fun _ => hP.pure _
  split
  · exact hP.bind (hP.wtfsHandlerServer act) fun _ => hP.pure _
  split
  · exact hP.bind (hP.lffsHandlerServer hP.listDir act) fun _ => hP.pure _
  split
  · exact hP.bind (hP.dffsHandlerServer hr act) fun _ => hP.pure _
  · exact hP.pure _

theorem Files.serveRoundVia (hP : Files E openIn P) (hr : ∀ n, P (E.removeFile n)) (act : Nat) :
    P (E.serveRoundVia openIn act) := by
  refine hP.bind (hP.receiveNoticeOfNewAction act) fun r => ?_
  refine Closed.ite (hP.pure _) ?_
  refine hP.bind (hP.readIntent act) fun i => ?_
  refine Closed.ite (hP.pure _) ?_
  refine hP.bind (hP.dispatchVia hr act i) fun x => ?_
  cases x <;> exact hP.pure _

theorem Files.sessionVia (hP : Files E openIn P) (hr : ∀ n, P (E.removeFile n))
    (hm : P E.makeUserDir) : P (E.sessionVia openIn) := by
  refine hP.bind hm fun x => ?_
  cases x with
  | error e => exact hP.pure _
  | ok _ => exact hP.bind hP.freshNonce fun _ => hP.loop (hP.serveRoundVia hr) 0

end

end ServerEnv

end Mefsc.L3
