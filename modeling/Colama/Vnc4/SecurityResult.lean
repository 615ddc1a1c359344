import Colama.Vnc4.Connection

namespace Colama.Vnc4

def secResultTooMany : Nat := 2

def readU32 : List UInt8 → Option (Nat × List UInt8)
  | a :: b :: c :: d :: is => some (((a.toNat * 256 + b.toNat) * 256 + c.toNat) * 256 + d.toNat, is)
  | _ => none

def readString (is : List UInt8) : Option (List UInt8 × List UInt8) := do
  let (len, is) ← readU32 is
  if len ≤ is.length then some (is.take len, is.drop len) else none

/-- No result is sent for `None` before 3.8. -/
def withoutResult (cp : ConnParams) (secType : Nat) : Bool := cp.beforeVersion 3 8 && decide (secType = secTypeNone)

/-- What the viewer takes the result to be, with the bytes that it leaves; nothing while bytes are missing. -/
def processResult (cp : ConnParams) (result : Nat) (is : List UInt8) : Option (Except (List UInt8) Unit × List UInt8) :=
  if result = secResultOK then some (.ok (), is)
  else if result = secResultFailed ∨ result = secResultTooMany then
    if cp.beforeVersion 3 8 then some (.error (text "Authentication failure"), is)
    else (readString is).map fun (reason, is) => (.error reason, is)
  else none

def processSecurityResultMsg (cp : ConnParams) (secType : Nat) (is : List UInt8) :
    Option (Except (List UInt8) Unit × List UInt8) :=
  if withoutResult cp secType then processResult cp secResultOK is
  else (readU32 is).bind fun (result, is) => processResult cp result is

section Server

variable (config : Config) (des : List UInt8 → List UInt8 → List UInt8) (env : Env)

/-- The local user is not asked. -/
def bypassesQuery (c : Conn) : Bool :=
  c.reverseConnection || !(config.queryConnect || c.requiresQuery) || decide (c.accessRights &&& accessNoQuery ≠ 0)

/-- What is written to a connection from one point to another. -/
def sent (f f' : Focus) : List UInt8 := f'.self.output.drop f.self.output.length

end Server

/-- One result, none for `None` before 3.8, and the reason of a failure from 3.8 on. -/
def resultMsg (cp : ConnParams) (secType : Nat) (result : Except String Unit) : List UInt8 :=
  if withoutResult cp secType then []
  else
    match result with
    | .ok () => writeU32 secResultOK
    | .error reason => writeU32 secResultFailed ++ if cp.beforeVersion 3 8 then [] else writeString reason

/-- What a viewer can be told. -/
def told (cp : ConnParams) (secType : Nat) (result : Except String Unit) : Except (List UInt8) Unit :=
  if withoutResult cp secType then .ok ()
  else
    match result with
    | .ok () => .ok ()
    | .error reason => .error (if cp.beforeVersion 3 8 then text "Authentication failure" else text reason)

/-- The bytes are the one message that the viewer expects, which it reads to its end. -/
structure Agrees (cp : ConnParams) (secType : Nat) (result : Except String Unit) (bytes : List UInt8) : Prop where
  form : bytes = resultMsg cp secType result
  consumed : (∀ reason, result = .error reason → (text reason).length < 2 ^ 32) →
    processSecurityResultMsg cp secType bytes = some (told cp secType result, [])

theorem readU32_writeU32 {n : Nat} (hn : n < 2 ^ 32) (is : List UInt8) :
    readU32 (writeU32 n ++ is) = some (n, is) := by
  simp only [writeU32, List.cons_append, List.nil_append, readU32, UInt8.toNat_ofNat', Nat.shiftRight_eq_div_pow,
    Option.some.injEq, Prod.mk.injEq, and_true]
  omega

section Written

variable {config : Config} {des : List UInt8 → List UInt8 → List UInt8} {env : Env} {f : Focus}

/-- What the last security message leaves as it is. -/
structure Finished (config : Config) (c : Conn) (s : SSecurity) (c' : Conn) : Prop where
  output : c'.output = c.output
  cp : c'.cp = c.cp
  bypasses : bypassesQuery config c' = bypassesQuery config c
  security : ∃ s', c'.security = some s' ∧ s'.getType = s.getType

end Written

def answer (queryResult : QueryResult) : Env :=
  { challenge := fun _ => 0, vncAuthPasswd := none, queryResult := queryResult, queryReason := some "no",
    startDesktop := ⟨fun _ => false, false⟩, serverInit := some [], readMsg := fun _ => (0, ⟨fun _ => false, false⟩) }

end Colama.Vnc4
