import Mefsc.Core.TextIn
import Mefsc.Core.Zoom
import Mefsc.L3Protocol.ClientConn

/-!
# The client at its prompt

`authed_comms` of `src/client/client.cpp` as it reads from `std::cin`
(`promptComms`), while `authedComms` of `Client.lean` is given what the user asks for;
and `main` with it, which reads the username and the password first (`promptMain`).
`typed` is what it makes of a text: the actions up to the one that ends the session,
or `none` when it comes to the end of the input inside `get_stuff`, which then tries
for ever.

Three details of the source decide about the text. `get_stuff` ignores one character
after a failure, not the rest of the line; the names for a download or a delete are
read without it, so they may be empty; and `perform_next` keeps its value when there
is nothing more to read.
-/
namespace Mefsc.L3

open L1 L1.SessionEncWrapper L2
open Proc hiding ret recv send act iter bind

/-- The client and its `std::cin`. -/
structure Typing where
  st : ClientState
  cin : TextIn

abbrev Prompt := Proc Typing Role

def clientPart : Part ClientState Typing where
  get t := t.st
  set t s := { t with st := s }
  get_set _ _ := rfl
  set_set _ _ _ := rfl
  set_get _ := rfl

variable {ρ α : Type}

/-- What does not read from `std::cin`. -/
def quiet (p : Proc ClientState ρ α) : Proc Typing ρ α := zoom clientPart id p

/-- `std::cin >> x` -/
def extract (x : TextIn → Option α × TextIn) : Proc Typing ρ (Option α) :=
  modifyGet fun s => ((x s.cin).1, { s with cin := (x s.cin).2 })

/-- One round of the loop in `get_stuff`. -/
def tryOnce (x : TextIn → Option α × TextIn) (_ : Unit) : Proc Typing ρ (Unit ⊕ α) := do
  match ← extract x with
  | some a => return .inr a
  | none =>
    modify fun s => { s with cin := s.cin.clear.ignore }
    return .inl ()

/-- mirrors src/client/client.cpp:42-48 -/
def getStuff (x : TextIn → Option α × TextIn) : Proc Typing ρ α := loop (tryOnce x) ()

/-- `'n'` -/
def no : UInt8 := 110

/-- `perform_next == 'y' || perform_next == 'Y'` -/
def yes (perform_next : UInt8) : Bool := perform_next == 121 || perform_next == 89

namespace ClientEnv

variable (C : ClientEnv)

/-- One round of the loop behind the two agents; `none`: the question about another
action comes next.
mirrors src/client/client.cpp:238-267 -/
def promptHandle (act : Nat) (SA : SenderAgent) (RA : ReceiverAgent) (intention : Int) :
    Prompt (Option ClientEnd) := do
  if intention = CONFUSION then return some (.returned (-1))
  else if intention = READ_FROM_FILESYSTEM then
    quiet (C.sendIntention act intention)
    let file_name ← extract TextIn.word
    match ← quiet (C.rffsHandler act RA (file_name.getD [])) with
    | none => return some .threw
    | some _ => return none
  else if intention = WRITE_TO_FILESYSTEM then
    quiet (C.sendIntention act intention)
    let file_name ← getStuff TextIn.word
    let _ ← quiet (C.wtfsHandler act SA file_name)
    return none
  else if intention = LIST_FILES then
    quiet (C.sendIntention act intention)
    let _ ← quiet (C.lffsHandler act)
    return none
  else if intention = DELETE_FILE then
    quiet (C.sendIntention act intention)
    let file_name ← extract TextIn.word
    let _ ← quiet (C.dffsHandler act (file_name.getD []))
    return none
  else return none

/-- The number of the action, and `perform_next`.
mirrors src/client/client.cpp:219-273 -/
def promptRound (g : Nat × UInt8) : Prompt ((Nat × UInt8) ⊕ ClientEnd) := do
  quiet (C.notifyServerOfAction g.1 NEW_ACTION)
  let intention ← getStuff TextIn.int
  let SA ← quiet C.newSenderAgent
  let RA ← quiet C.newReceiverAgent
  match ← C.promptHandle g.1 SA RA intention with
  | some e => return .inr e
  | none =>
    let c ← extract TextIn.char
    if yes (c.getD g.2) then return .inl (g.1 + 1, c.getD g.2)
    else
      quiet (C.notifyServerOfAction (g.1 + 1) NO_ACTION)
      return .inr (.returned 0)

/-- mirrors src/client/client.cpp:204-278 -/
def promptComms : Prompt ClientEnd := loop C.promptRound (0, no)

end ClientEnv

/-- The client's process, with what `recv` brings of the verdict. The password of `H` is
not looked at.
mirrors src/client/client.cpp:50-90 and :311-343 -/
def ClientHost.promptMain (H : ClientHost) (got : Nat) : Proc Typing ConnRole ClientExit := do
  match ← quiet H.clientCryptGen with
  | .error _ => return .keyExchange
  | .ok keys =>
    let n ← quiet (zoom (wholePart ClientState) ConnRole.session ((H.env keys).randombytes AEAD_NPUBBYTES))
    quiet (modify fun s => { s with original_nonce := n })
    let username ← getStuff TextIn.word
    let password ← getStuff TextIn.word
    let C := { H with password := password }.env keys
    if ← quiet (C.sendCredentials username got) then
      let e ← zoom (wholePart Typing) ConnRole.session C.promptComms
      return .ended e
    else return .unauthenticated

/-! ## What the text says -/

/-- Username and password. -/
def readLogin (c : TextIn) : Option ((Bytes × Bytes) × TextIn) :=
  (TextIn.get TextIn.word c).bind fun u =>
    (TextIn.get TextIn.word u.2).map fun p => ((u.1, p.1), p.2)

/-- The name that goes with an intention. -/
def withName (intention : Int) (c : TextIn) : Option (UserAction × TextIn) :=
  if intention = READ_FROM_FILESYSTEM ∨ intention = DELETE_FILE then
    some (⟨intention, (c.word).1.getD []⟩, (c.word).2)
  else if intention = WRITE_TO_FILESYSTEM then
    (TextIn.get TextIn.word c).map fun x => (⟨intention, x.1⟩, x.2)
  else some (⟨intention, []⟩, c)

def readAction (c : TextIn) : Option (UserAction × TextIn) :=
  (TextIn.get TextIn.int c).bind fun x => withName x.1 x.2

/-- The client leaves with this action. -/
def Stops (a : UserAction) : Prop :=
  a.intention = CONFUSION ∨ (a.intention = READ_FROM_FILESYSTEM ∧ a.file_name.length < 4)

instance (a : UserAction) : Decidable (Stops a) :=
  inferInstanceAs (Decidable (a.intention = CONFUSION ∨ (a.intention = READ_FROM_FILESYSTEM ∧ a.file_name.length < 4)))

/-- At most `n` actions, with the answer that was given before. -/
def typedN : Nat → UInt8 → TextIn → Option (List UserAction × TextIn)
  | 0, _, _ => none
  | n + 1, perform_next, c =>
    (readAction c).bind fun x =>
      if Stops x.1 then some ([x.1], x.2)
      else if yes ((x.2.char).1.getD perform_next) then
        (typedN n ((x.2.char).1.getD perform_next) (x.2.char).2).map fun y => (x.1 :: y.1, y.2)
      else some ([x.1], (x.2.char).2)

def typed (c : TextIn) : Option (List UserAction × TextIn) := typedN (c.buf.length + 1) no c

end Mefsc.L3
