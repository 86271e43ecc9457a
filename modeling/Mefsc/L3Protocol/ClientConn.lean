import Mefsc.Core.Zoom
import Mefsc.L3Protocol.Client
import Mefsc.L3Protocol.HandleConn

/-!
# The client's part of a connection

`main` of `src/client/client.cpp` behind the key exchange (`clientMain`):
`original_nonce` is drawn, the credentials go out, and the actions follow when the
server has taken them. The four bytes of the answer are asked for with one `recv`,
which may bring fewer; `got` is what it brings.

`ClientHost.main` is all of it from the connected socket on. The key pair and
`crypto_kx_client_session_keys` are taken as they are.
-/
namespace Mefsc.L3

open L1 L1.SessionEncWrapper L2
open Proc hiding ret recv send act iter bind

/-- The whole state. -/
def wholePart (σ : Type) : Part σ σ where
  get t := t
  set _ s := s
  get_set _ _ := rfl
  set_set _ _ _ := rfl
  set_get _ := rfl

namespace ClientEnv

variable (C : ClientEnv)

/-- Wrap a credential under `client_tx` with `original_nonce` and send it. -/
def sendCredential (c : Credential) (m : Bytes) : Proc ClientState ConnRole Unit := do
  let nonce ← read (·.original_nonce)
  let nonce ← sendFrame C.na.aead (.credential c) m C.client_tx nonce
  modify fun s => { s with original_nonce := nonce }

/-- mirrors src/client/client.cpp:66-76 -/
def offerCredentials (username : Bytes) : Proc ClientState ConnRole Unit := do
  C.sendCredential .username (username ++ [0])
  C.sendCredential .password (C.password ++ [0])

/-- `auth_stat`, -1 before `b` is received into it. -/
def authStat (b : Bytes) : Int := i32Dec (blit b (i32Enc (-1)))

/-- `false`: the client exits.
mirrors src/client/client.cpp:50-90 -/
def sendCredentials (username : Bytes) (got : Nat) : Proc ClientState ConnRole Bool := do
  C.offerCredentials username
  match ← recvN .ack (min got 4) with
  | none => return false
  | some b => return decide (authStat b ≠ -1)

/-- mirrors src/client/client.cpp:330-343 -/
def clientMain (username : Bytes) (got : Nat) (first : UserAction) (more : List UserAction) :
    Proc ClientState ConnRole (Option ClientEnd) := do
  let n ← zoom (wholePart ClientState) ConnRole.session (C.randombytes AEAD_NPUBBYTES)
  modify fun s => { s with original_nonce := n }
  if ← C.sendCredentials username got then
    let e ← zoom (wholePart ClientState) ConnRole.session (C.authedComms first more)
    return some e
  else return none

end ClientEnv

/-- The client: its keys for this connection, and what its user brings. -/
structure ClientHost where
  na : Sodium
  host : Host
  cwd : Path
  password : Bytes
  client_pk : Bytes
  client_session_keys : Bytes → Option (Bytes × Bytes)

/-- How the client's process ends: with 1 from `client_crypt_gen`'s failure, by
`exit(-1)`, or behind `authed_comms`. -/
inductive ClientExit where
  | keyExchange | unauthenticated
  | ended (e : ClientEnd)
  deriving DecidableEq, Repr

namespace ClientHost

variable (H : ClientHost)

/-- With `client_rx` and `client_tx`. -/
def env (keys : Bytes × Bytes) : ClientEnv := ⟨H.na, H.host, keys.2, keys.1, H.cwd, H.password⟩

/-- mirrors src/encryption_utils/encryption_utils.cpp:76-104 -/
def clientCryptGen : Proc ClientState ConnRole (Except Int (Bytes × Bytes)) := do
  let _ ← sendB .publicKey H.client_pk
  match ← recvN .publicKey KX_PUBLICKEYBYTES with
  | none => return .error 2
  | some server_pk =>
    match H.client_session_keys server_pk with
    | none => return .error 1
    | some keys => return .ok keys

/-- mirrors src/client/client.cpp:311-343 -/
def main (username : Bytes) (got : Nat) (first : UserAction) (more : List UserAction) :
    Proc ClientState ConnRole ClientExit := do
  match ← H.clientCryptGen with
  | .error _ => return .keyExchange
  | .ok keys =>
    match ← (H.env keys).clientMain username got first more with
    | none => return .unauthenticated
    | some e => return .ended e

end ClientHost

end Mefsc.L3
