import Mathlib.Tactic

namespace Colama.Vnc4

inductive RfbState
  | uninitialised | protocolVersion | securityType | security | querying
  | initialisation | normal | closing | invalid
  deriving DecidableEq

def secTypeInvalid : Nat := 0
def secTypeNone : Nat := 1
def secTypeVncAuth : Nat := 2
def secResultOK : Nat := 0
def secResultFailed : Nat := 1
def vncAuthChallengeSize : Nat := 16

def accessDefault : Nat := 0x03ff
def accessNoQuery : Nat := 0x0400

/-- The bytes of a text. -/
def text (s : String) : List UInt8 := s.toList.map fun c => UInt8.ofNat c.toNat

def writeU32 (n : Nat) : List UInt8 :=
  [UInt8.ofNat (n >>> 24), UInt8.ofNat (n >>> 16), UInt8.ofNat (n >>> 8), UInt8.ofNat n]

def writeString (s : String) : List UInt8 := writeU32 (text s).length ++ text s

def isspace (c : UInt8) : Bool := c = 32 || (9 ≤ c && c ≤ 13)

def isdigit (c : UInt8) : Bool := 48 ≤ c && c ≤ 57

/-- The conversion of a decimal number of at most `width` characters. -/
def scanInt (width : Nat) (s : List UInt8) : Option (Int × List UInt8) :=
  let number (width : Nat) (s : List UInt8) : Option (Int × List UInt8) :=
    let digits := (s.take width).takeWhile isdigit
    if digits = [] then none
    else some (digits.foldl (fun n d => 10 * n + (d.toNat - 48)) 0, s.drop digits.length)
  match s.dropWhile isspace with
  | 45 :: s => (number (width - 1) s).map fun r => (-r.1, r.2)
  | 43 :: s => number (width - 1) s
  | s => number width s

/-- The two numbers that `"RFB %03d.%03d\n"` finds in the bytes of a version message. -/
def scanVersion (verStr : List UInt8) : Option (Int × Int) :=
  match verStr.takeWhile (· ≠ 0) with
  | 82 :: 70 :: 66 :: s => do
    let (major, s) ← scanInt 3 s
    match s with
    | 46 :: s =>
      let (minor, _) ← scanInt 3 s
      some (major, minor)
    | _ => none
  | _ => none

structure ConnParams where
  majorVersion : Int
  minorVersion : Int
  verStr : List UInt8
  deriving DecidableEq

def ConnParams.isVersion (cp : ConnParams) (major minor : Int) : Bool :=
  cp.majorVersion = major && cp.minorVersion = minor

def ConnParams.beforeVersion (cp : ConnParams) (major minor : Int) : Bool :=
  cp.majorVersion < major || (cp.majorVersion = major && cp.minorVersion < minor)

/-- Three digits at least, as `%03d` prints a number that is not negative. -/
def print03 (n : Int) : String :=
  let s := toString n
  String.ofList (List.replicate (3 - s.length) '0') ++ s

def ConnParams.writeVersion (cp : ConnParams) : List UInt8 :=
  text ("RFB " ++ print03 cp.majorVersion ++ "." ++ print03 cp.minorVersion ++ "\n")

inductive SSecurity
  | none
  | vncAuth (sentChallenge : Bool) (challenge response : List UInt8)
  deriving DecidableEq

def SSecurity.getType : SSecurity → Nat
  | .none => secTypeNone
  | .vncAuth _ _ _ => secTypeVncAuth

inductive Exn
  | authFailure (str : String)
  | connFailed (str : String)
  | exception (str : String)
  deriving DecidableEq

/-- What happens to a connection, as its history records it. -/
inductive Event
  | entered (state : RfbState)
  | challenge (bytes : List UInt8)
  | response (bytes passwd : List UInt8)
  | processed (secType : Nat)
  | approve (accept : Bool) (state : RfbState)
  | readMsg
  deriving DecidableEq

/-- A connection with its socket: the bytes that are there to be read, and all that has been written. -/
structure Conn where
  sock : Nat
  reverseConnection : Bool
  requiresQuery : Bool
  state : RfbState
  cp : ConnParams
  security : Option SSecurity
  accessRights : Nat
  input : List UInt8
  output : List UInt8
  history : List Event
  deriving DecidableEq

def Conn.note (c : Conn) (e : Event) : Conn := { c with history := c.history ++ [e] }

def Conn.setState (c : Conn) (state : RfbState) : Conn := { c with state := state }.note (.entered state)

def Conn.write (c : Conn) (bytes : List UInt8) : Conn := { c with output := c.output ++ bytes }

def Conn.authenticated (c : Conn) : Bool := c.state = .initialisation || c.state = .normal

def Conn.close (c : Conn) : Conn := c.setState .closing

structure Config where
  protocol3_3 : Bool
  neverShared : Bool
  alwaysShared : Bool
  disconnectClients : Bool
  queryConnect : Bool
  secTypes : List Nat
  revSecTypes : List Nat

inductive QueryResult
  | accept | reject | pending
  deriving DecidableEq

/-- What else a call into the desktop does: the connections that it closes, and whether it throws. -/
structure Effects where
  closed : Nat → Bool
  throws : Bool

/-- What the processing of a message finds outside of the connections. -/
structure Env where
  challenge : Fin 16 → UInt8
  vncAuthPasswd : Option (List UInt8)
  queryResult : QueryResult
  queryReason : Option String
  startDesktop : Effects
  serverInit : Option (List UInt8)
  readMsg : List UInt8 → Nat × Effects

/-- The connections of the server, with the one that is being served. -/
structure Focus where
  before : List Conn
  self : Conn
  after : List Conn

def Focus.clients (f : Focus) : List Conn := f.before ++ f.self :: f.after

def Focus.map (g : Conn → Conn) (f : Focus) : Focus := ⟨f.before.map g, g f.self, f.after.map g⟩

def Focus.update (f : Focus) (g : Conn → Conn) : Focus := { f with self := g f.self }

def Focus.authClientCount (f : Focus) : Nat := f.clients.countP Conn.authenticated

/-- `closeClients` with the connection that is being served as the exception. -/
def Focus.closeClients (f : Focus) : Focus :=
  { f with before := f.before.map Conn.close, after := f.after.map Conn.close }

section Messages

variable (config : Config) (des : List UInt8 → List UInt8 → List UInt8) (env : Env)

def isSecTypeSupported (secType : Nat) : Bool := secType = secTypeNone || secType = secTypeVncAuth

def getSecTypes (reverseConnection : Bool) : List Nat :=
  (if reverseConnection then config.revSecTypes else config.secTypes).filter isSecTypeSupported

def getSSecurity (secType : Nat) : Option SSecurity :=
  if secType = secTypeNone then some .none
  else if secType = secTypeVncAuth then some (.vncAuth false [] [])
  else none

/-- The DES encryption of a challenge, with the password as the key. -/
def expectedResponse (passwd challenge : List UInt8) : List UInt8 :=
  let key := (List.range 8).map fun i => passwd.getD i 0
  des key (challenge.take 8) ++ des key (challenge.drop 8)

def SSecurity.processMsg (c : Conn) : SSecurity → Conn × Except Exn Bool
  | .none => (c, .ok true)
  | .vncAuth false _ response =>
    let challenge := List.ofFn env.challenge
    (({ c with security := some (.vncAuth true challenge response) }.write challenge).note (.challenge challenge),
      .ok false)
  | .vncAuth true challenge response =>
    let n := vncAuthChallengeSize - response.length
    let response := response ++ c.input.take n
    let c := { c with input := c.input.drop n, security := some (.vncAuth true challenge response) }
    if response.length < vncAuthChallengeSize then (c, .ok false)
    else
      match env.vncAuthPasswd with
      | .none => (c, .error (.authFailure "No password configured for VNC Auth"))
      | some passwd =>
        -- the source encrypts the challenge in its place, where nothing reads it after the comparison
        let c := c.note (.response response passwd)
        if expectedResponse des passwd challenge ≠ response then (c, .error (.authFailure "Authentication failure"))
        else (c, .ok true)

/-- The new pixel buffer is set for each client, of which those are closed that fail. -/
def pixelBufferChange (closed : Nat → Bool) (c : Conn) : Conn :=
  if c.authenticated && closed c.sock then c.close else c

def authSuccess (f : Focus) : Focus × Option Exn :=
  (f.map (pixelBufferChange env.startDesktop.closed),
    if env.startDesktop.throws then
      some (.exception "SDesktop::start() did not set a valid PixelBuffer")
    else none)

def approveConnection (accept : Bool) (reason : Option String) (f : Focus) : Focus × Option Exn :=
  let f := f.update (·.note (.approve accept f.self.state))
  let c := f.self
  if c.state ≠ .querying then (f, some (.exception "SConnection::approveConnection: invalid state"))
  else
    let reason := reason.getD "Authentication failure"
    let f :=
      if !c.cp.beforeVersion 3 8 || c.security.map SSecurity.getType ≠ some secTypeNone then
        if accept then f.update (·.write (writeU32 secResultOK))
        else f.update (·.write (writeU32 secResultFailed ++ if !c.cp.beforeVersion 3 8 then writeString reason else []))
      else f
    if accept then authSuccess env (f.update (·.setState .initialisation))
    else (f.update (·.setState .invalid), some (.authFailure reason))

def queryConnection (f : Focus) : Focus × Option Exn :=
  if config.neverShared && !config.disconnectClients && decide (f.authClientCount > 0) then
    approveConnection env false (some "The server is already in use") f
  else if f.self.reverseConnection || !(config.queryConnect || f.self.requiresQuery) ||
      decide (f.self.accessRights &&& accessNoQuery ≠ 0) then
    approveConnection env true none f
  else
    match env.queryResult with
    | .pending => (f, none)
    | .accept => approveConnection env true env.queryReason f
    | .reject => approveConnection env false env.queryReason f

/-- The handler around a security message: the failure is told to the client. -/
def catchAuthFailure : Focus × Option Exn → Focus × Option Exn
  | (f, some (.authFailure str)) =>
    (f.update (·.write (writeU32 secResultFailed ++ if !f.self.cp.beforeVersion 3 8 then writeString str else [])),
      some (.authFailure str))
  | r => r

def processSecurityMsg (f : Focus) : Focus × Option Exn :=
  match f.self.security with
  | none => (f, some (.exception "no security"))
  | some security =>
    match security.processMsg des env f.self with
    | (c, .ok false) => ({ f with self := c }, none)
    | (c, .ok true) =>
      catchAuthFailure (queryConnection config env
        { f with self := (c.note (.processed security.getType)).setState .querying })
    | (c, .error e) => catchAuthFailure ({ f with self := c }, some e)

def throwConnFailedException (msg : String) (f : Focus) : Focus × Option Exn :=
  let f :=
    if f.self.state = .protocolVersion then
      if f.self.cp.isVersion 3 3 then f.update (·.write (writeU32 0 ++ writeString msg))
      else f.update (·.write (0 :: writeString msg))
    else f
  (f.update (·.setState .invalid), some (.connFailed msg))

def defaultMinorVersion : Int := if config.protocol3_3 then 3 else 8

/-- The version that a client with an unofficial minor version is taken to have. -/
def cookedMinorVersion (minorVersion : Int) : Int :=
  if minorVersion ≠ 3 ∧ minorVersion ≠ 7 ∧ minorVersion ≠ 8 then if minorVersion ≥ 8 then 8 else 3
  else minorVersion

/-- The security types are offered to a client whose version is known. -/
def offerSecTypes (f : Focus) : Focus × Option Exn :=
  let secTypes := getSecTypes config f.self.reverseConnection
  if f.self.cp.isVersion 3 3 then
    match secTypes.find? fun i => i = secTypeNone || i = secTypeVncAuth with
    | none =>
      throwConnFailedException ("No supported security type for " ++ toString f.self.cp.majorVersion ++ "." ++
        toString f.self.cp.minorVersion ++ " client") f
    | some i =>
      let f := f.update fun c => (c.write (writeU32 i)).setState .security
      match getSSecurity i with
      | none => (f, some (.exception "Security type not supported"))
      | some security =>
        processSecurityMsg config des env (f.update fun c => { c with security := some security })
  else if secTypes = [] then throwConnFailedException "No supported security types" f
  else
    (f.update fun c => (c.write (UInt8.ofNat secTypes.length :: secTypes.map UInt8.ofNat)).setState .securityType, none)

def processVersionMsg (f : Focus) : Focus × Option Exn :=
  let failed (f : Focus) : Focus × Option Exn :=
    (f.update (·.setState .invalid), some (.exception "reading version failed: not an RFB client?"))
  if f.self.cp.verStr.length ≥ 12 then failed f
  else
    let n := 12 - f.self.cp.verStr.length
    let verStr := f.self.cp.verStr ++ f.self.input.take n
    let f := f.update fun c => { c with input := c.input.drop n, cp := { c.cp with verStr := verStr } }
    if verStr.length < 12 then (f, none)
    else
      match scanVersion verStr with
      | none => failed f
      | some (major, minor) =>
        let f := f.update fun c => { c with cp := ⟨major, minor, verStr⟩ }
        if major ≠ 3 then
          throwConnFailedException ("Error: client needs protocol version " ++ toString major ++ "." ++
            toString minor ++ ", server has 3." ++ toString (defaultMinorVersion config)) f
        else
          offerSecTypes config des env (f.update fun c => { c with cp := ⟨major, cookedMinorVersion minor, verStr⟩ })

def processSecurityTypeMsg (secType : Nat) (f : Focus) : Focus × Option Exn :=
  if secType ∉ getSecTypes config f.self.reverseConnection then
    (f, some (.exception "Requested security type not available"))
  else
    let f := f.update (·.setState .security)
    match getSSecurity secType with
    | none => throwConnFailedException "Security type not supported" f
    | some security =>
      processSecurityMsg config des env (f.update fun c => { c with security := some security })

def clientInit (shared : Bool) (f : Focus) : Focus × Option Exn :=
  let shared := if config.alwaysShared || f.self.reverseConnection then true else shared
  let shared := if config.neverShared then false else shared
  let init (f : Focus) : Focus × Option Exn :=
    match env.serverInit with
    | none => (f, some (.exception "writing server initialisation failed"))
    | some bytes => (f.update fun c => (c.write bytes).setState .normal, none)
  if shared then init f
  else if config.disconnectClients then init f.closeClients
  else if f.authClientCount > 1 then (f.update Conn.close, none)
  else init f

/-- A message of a client in the normal state, of which at least the type is read. -/
def readMsg (f : Focus) : Focus × Option Exn :=
  let (n, effects) := env.readMsg f.self.input
  let f := f.update fun c => { c with input := c.input.drop (n + 1) }.note .readMsg
  (f.map fun c => if effects.closed c.sock then c.close else c,
    if effects.throws then some (.exception "reading message failed") else none)

/-- One message, of which there is a first byte to read. -/
def processMsg (f : Focus) : Focus × Option Exn :=
  let readU8 := (f.self.input.headD 0).toNat
  let rest := f.update fun c => { c with input := c.input.drop 1 }
  match f.self.state with
  | .protocolVersion => processVersionMsg config des env f
  | .securityType => processSecurityTypeMsg config des env readU8 rest
  | .security => processSecurityMsg config des env f
  | .initialisation => clientInit config env (readU8 ≠ 0) rest
  | .normal => readMsg env f
  | .querying => (f, some (.exception "SConnection::processMsg: bogus data from client while querying"))
  | .uninitialised => (f, some (.exception "SConnection::processMsg: not initialised yet?"))
  | .closing | .invalid => (f, some (.exception "SConnection::processMsg: invalid state"))

/-- What ends in an exception closes the connection. -/
def orClose : Focus × Option Exn → Focus
  | (f, none) => f
  | (f, some _) => f.update Conn.close

/-- The messages are processed while there is something to read; each takes a byte at least. -/
def processWhile : Nat → Focus → Focus
  | 0, f => f
  | fuel + 1, f =>
    if f.self.input = [] then f
    else
      match processMsg config des env f with
      | (f, none) => processWhile fuel f
      | (f, some e) => orClose (f, some e)

def processMessages (f : Focus) : Focus :=
  if f.self.state = .closing then f else processWhile config des env f.self.input.length f

end Messages

/-- The connection with the socket, among all. -/
def focusOn (sock : Nat) : List Conn → Option Focus
  | [] => none
  | c :: cs =>
    if c.sock = sock then some ⟨[], c, cs⟩
    else (focusOn sock cs).map fun f => { f with before := c :: f.before }

/-- What is done to the connection with the socket, if there is one. -/
def serve (sock : Nat) (g : Focus → Focus) (clients : List Conn) : List Conn :=
  match focusOn sock clients with
  | none => clients
  | some f => (g f).clients

inductive Action
  | addSocket (sock : Nat) (outgoing blackmarked requiresQuery : Bool)
  | removeSocket (sock : Nat)
  | processSocketEvent (sock : Nat) (data : List UInt8) (env : Env)
  | approveConnection (sock : Nat) (accept : Bool) (reason : Option String) (env : Env)
  | close (sock : Nat)

/-- A connection is made, and the version of the server is written. -/
def newConn (config : Config) (sock : Nat) (outgoing requiresQuery : Bool) : Conn :=
  let c : Conn :=
    { sock := sock, reverseConnection := outgoing, requiresQuery := requiresQuery, state := .uninitialised,
      cp := ⟨3, defaultMinorVersion config, []⟩, security := none, accessRights := accessDefault,
      input := [], output := [], history := [] }
  (c.write c.cp.writeVersion).setState .protocolVersion

/-- What the server does, and what is done to it; a socket is added while no connection has it. -/
def step (config : Config) (des : List UInt8 → List UInt8 → List UInt8) (clients : List Conn) : Action → List Conn
  | .addSocket sock outgoing blackmarked requiresQuery =>
    if blackmarked || clients.any (·.sock = sock) then clients
    else newConn config sock outgoing requiresQuery :: clients
  | .removeSocket sock => clients.filter (·.sock ≠ sock)
  | .processSocketEvent sock data env =>
    serve sock (fun f => processMessages config des env (f.update fun c => { c with input := c.input ++ data })) clients
  | .approveConnection sock accept reason env =>
    serve sock (fun f => orClose (approveConnection env accept reason f)) clients
  | .close sock => serve sock (fun f => f.update Conn.close) clients

/-- The connections after a run from the start of the server. -/
def run (config : Config) (des : List UInt8 → List UInt8 → List UInt8) (actions : List Action) : List Conn :=
  actions.foldl (step config des) []

end Colama.Vnc4
