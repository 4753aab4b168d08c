import IcsDeception.Decoy.LineReader

/-!
# A session of an interactive decoy

The Telnet and the SSH-banner service from the first event to the last: the login, the
commands, and every way in which the connection ends.

## Implementation notes

The two services differ in their names, in one note, in the words that end a session, and in
what they do with the first line; they are two values of `Service`. What they answer is left
out, but not whether it could be sent: a connection carries the result of each send.
-/

namespace IcsDeception.Decoy

open Text Json

/-! ## The source -/

/-- `kMaxCommandsPerSession`. -/
def maxCommandsPerSession : Nat := 200

/-- The peer's address and port. -/
structure Peer where
  octets : UInt8 × UInt8 × UInt8 × UInt8
  port : UInt16
  deriving DecidableEq

/-- `peer_ip`. -/
def Peer.ip (p : Peer) : Bytes :=
  Utf8.encodeAll (Decimal.natText p.octets.1.toNat ++ lit "." ++
    Decimal.natText p.octets.2.1.toNat ++ lit "." ++ Decimal.natText p.octets.2.2.1.toNat ++
    lit "." ++ Decimal.natText p.octets.2.2.2.toNat)

/-- The address and port in an event. -/
def Peer.parts (p : Peer) : List Part :=
  [.str (lit "client_ip") p.ip, .num (lit "client_port") p.port.toNat]

/-- What tells the two services apart. -/
structure Service where
  source : Str
  name : Str
  /-- The note in the connection event. -/
  note : List Part
  /-- How many texts are sent before the first line is read. -/
  greetings : Nat
  /-- Whether an SSH identification in the first line is recorded. -/
  identifies : Bool
  /-- The commands that end the session. -/
  exits : List Bytes

/-- The Telnet service. -/
def telnet : Service where
  source := lit "fake_telnet"
  name := lit "telnet"
  note := []
  greetings := 1
  identifies := false
  exits := [ascii "exit", ascii "quit"]

/-- The SSH-banner service. -/
def sshBanner : Service where
  source := lit "fake_ssh_banner"
  name := lit "ssh_banner"
  note := [.str (lit "note") (ascii "SSH-banner decoy; no key exchange performed")]
  greetings := 2
  identifies := true
  exits := [ascii "exit", ascii "quit", ascii "logout"]

/-- A connection: what is received, and whether each text can be sent. -/
structure Conn where
  arrivals : List Arrival
  sends : Nat → Bool

namespace Conn

/-- The connection after one text. -/
def sent (c : Conn) : Conn := { c with sends := fun n => c.sends (n + 1) }

/-- The connection after a line. -/
def after (c : Conn) (arrivals : List Arrival) : Conn := { c with arrivals := arrivals }

/-- Texts that are sent one after another, up to the first that cannot be sent. -/
def sendAll : Nat → Conn → Bool × Conn
  | 0, c => (true, c)
  | n + 1, c => if c.sends 0 then sendAll n c.sent else (false, c.sent)

end Conn

namespace Service

variable (svc : Service) (peer : Peer)

/-- An event of the session, named after its service. -/
def event (what : String) (details : List Part) : Event :=
  ⟨svc.name ++ lit what, peer.parts ++ details⟩

/-- `record_peer_identification`. -/
def recordPeerIdentification (line : Bytes) : List Event :=
  if svc.identifies = true ∧ (ascii "SSH-").isPrefixOf line = true then
    [svc.event peer "_peer_identification"
      [.str (lit "first_line") line,
        .str (lit "note")
          (ascii "peer sent an SSH identification string; this decoy performs no key exchange")]]
  else []

/-- `log_login_attempt`. -/
def logLoginAttempt (captureCredentials : Bool) (username password : Bytes) : Event :=
  ⟨lit "login_attempt", peer.parts ++
    [.str (lit "username") username, .num (lit "password_length") password.length,
      .str (lit "password_shape") (passwordShape password),
      .num (lit "credentials_captured") (if captureCredentials then 1 else 0)] ++
    if captureCredentials then [.str (lit "password") password] else []⟩

/-- Why a session ends before the login is complete. -/
def loginReason (status : LineStatus) : Str :=
  if status = .tooLong then lit "line_too_long" else lit "login_incomplete"

/-- How a login ends: with a close reason, or with a name and a password. -/
inductive Login
  | refused (reason : Str)
  | complete (username password : Bytes) (conn : Conn)

/-- The login of `session`, with what it logs. -/
def login (c : Conn) : List Event × Login :=
  match Conn.sendAll svc.greetings c with
  | (false, _) => ([], .refused (lit "send_failed"))
  | (true, c) =>
      let user := readLine c.arrivals
      (svc.recordPeerIdentification peer user.out,
        if user.status ≠ .ok then .refused (loginReason user.status)
        else if c.sends 0 = false then .refused (lit "send_failed")
        else
          let pass := readLine user.rest
          if pass.status ≠ .ok then .refused (loginReason pass.status)
          else .complete user.out pass.out (c.sent.after pass.rest))

/-- The loop of `session` over the commands: what it logs, and the close reason. -/
def commands : Nat → Nat → Conn → List Event × Str
  | 0, _, _ => ([], lit "peer_closed")
  | fuel + 1, count, c =>
      let read := readLine c.arrivals
      match read.status with
      | .timeout => ([svc.event peer "_timeout" []], lit "timeout")
      | .tooLong =>
          ([svc.event peer "_line_too_long" [.num (lit "limit") maxLineLength]],
            lit "line_too_long")
      | .closed => ([], lit "peer_closed")
      | .error => ([], lit "error")
      | .ok =>
          if read.out = [] then
            if c.sends 0 then commands fuel count (c.sent.after read.rest)
            else ([], lit "send_failed")
          else if maxCommandsPerSession < count + 1 then
            ([svc.event peer "_command_limit" [.num (lit "limit") maxCommandsPerSession]],
              lit "command_limit")
          else
            let logged := svc.event peer "_command"
              [.str (lit "command") read.out, .num (lit "sequence") ((count + 1 : Nat) : Int)]
            if read.out ∈ svc.exits then ([logged], lit "client_exit")
            else if c.sends 0 then
              let next := commands fuel (count + 1) (c.sent.after read.rest)
              (logged :: next.1, next.2)
            else ([logged], lit "send_failed")

/-- The end of `session`: what follows the login, and the close reason. -/
def serve (captureCredentials : Bool) : Login → List Event × Str
  | .refused reason => ([], reason)
  | .complete username password c =>
      let attempt := logLoginAttempt peer captureCredentials username password
      if c.sends 0 then
        let rest := svc.commands peer (c.arrivals.length + 1) 0 c.sent
        (attempt :: rest.1, rest.2)
      else ([attempt], lit "send_failed")

/-- `session`: the events that are logged for one client. -/
def session (captureCredentials : Bool) (c : Conn) : List Event :=
  let login := svc.login peer c
  let served := svc.serve peer captureCredentials login.2
  svc.event peer "_connection" svc.note :: (login.1 ++ served.1 ++
    [svc.event peer "_connection_closed" [.str (lit "reason") (Utf8.encodeAll served.2)]])

end Service

/-- `session` of the Telnet service. -/
def Telnet.session : Peer → Bool → Conn → List Event := telnet.session

/-- `session` of the SSH-banner service. -/
def SshBanner.session : Peer → Bool → Conn → List Event := sshBanner.session

end IcsDeception.Decoy
