import Respublica.Program.SystemInterface

/-!
# The coin program

The one native program. It reads a request from its standard input and executes it.
Integers start at zero, but the accounts a request names are read into locals that the
source does not initialise: a short input leaves the rest of them as it was. `Locals` is
that leftover content.
-/

namespace Respublica.Program.Coin

open Foundation Protocol StateDb Interaction

/-- The content of the account locals before anything is read into them. -/
structure Locals where
  account : Account
  source : Account
  target : Account

/-- What an input asks for. -/
inductive Request where
  | authorize
  | name
  | symbol
  | decimals
  | totalSupply
  | balanceOf (account : Account)
  | transfer (source target : Account) (value : UInt64)
  | mint (target : Account) (value : UInt64)
  | burn (source : Account) (value : UInt64)
  | unknown
deriving DecidableEq

/-- Object id of the supply, stored under the empty key. -/
def supplyId : UInt32 := 0

/-- Object id of the balances, stored under the account. -/
def balanceId : UInt32 := 1

/-- Issue one system call. -/
def call (request : SystemCall) : NativeProgram request.Response := Interaction.perform request

/-- Read over the start of a buffer from the standard input, ignoring the error code. -/
def readOver (buffer : Bytes) : NativeProgram Bytes := do
  let (_, bytes) ← call (.read .stdin buffer.length)
  pure (overwrite buffer bytes)

def readAccount (local_ : Account) : NativeProgram Account := do
  let bytes ← readOver local_.1
  pure (SizedBytes.fit 33 bytes)

def readValue : NativeProgram UInt64 := do
  let bytes ← readOver (storeWord 0)
  pure (loadWord bytes)

def readInstruction : NativeProgram Nat := do
  let bytes ← readOver (littleEndian 4 0)
  pure (fromLittleEndian (bytes.take 4))

/-- Everything a run reads before it does anything else. -/
def readRequest (locals : Locals) : NativeProgram Request := do
  match ← readInstruction with
  | 0 => pure .authorize
  | 1 => pure .name
  | 2 => pure .symbol
  | 3 => pure .decimals
  | 4 => pure .totalSupply
  | 5 => do
      let account ← readAccount locals.account
      pure (.balanceOf account)
  | 6 => do
      let source ← readAccount locals.source
      let target ← readAccount locals.target
      let value ← readValue
      pure (.transfer source target value)
  | 7 => do
      let target ← readAccount locals.target
      let value ← readValue
      pure (.mint target value)
  | 8 => do
      let source ← readAccount locals.source
      let value ← readValue
      pure (.burn source value)
  | _ => pure .unknown

/-- A stored word, or zero where nothing is stored. -/
def storedWord (id : UInt32) (key : Bytes) : NativeProgram UInt64 := do
  let object ← call (.getObject id key)
  if object.length = 0 then pure 0
  else if object.length = 8 then pure (loadWord object)
  else Interaction.stop .assertion

def totalSupply : NativeProgram UInt64 := storedWord supplyId []

def balanceOf (account : Account) : NativeProgram UInt64 := storedWord balanceId account.1

/-- Store a word, ignoring the error code. -/
def storeObject (id : UInt32) (key : Bytes) (word : UInt64) : NativeProgram Unit := do
  let _ ← call (.putObject id key (storeWord word))

def writeOut (bytes : Bytes) : NativeProgram ErrorCode := do
  let _ ← call (.write .stdout bytes)
  pure (.program .ok)

/-- The guard of `transfer` and `burn`: the source is the caller, or `check_authority`
came back with a value. Which value it was is not looked at. -/
def permitted (source : Account) : NativeProgram Bool := do
  let caller ← call .getCaller
  if source.1 = caller then pure true
  else do
    match ← call (.checkAuthority source) with
    | .ok _ => pure true
    | .error _ => pure false

/-- The part of `transfer` behind its guard. -/
def moveCoins (source target : Account) (value : UInt64) : NativeProgram ErrorCode := do
  let sourceBalance ← balanceOf source
  if sourceBalance < value then pure (.program .insufficientBalance)
  else do
    let targetBalance ← balanceOf target
    storeObject balanceId source.1 (sourceBalance - value)
    storeObject balanceId target.1 (targetBalance + value)
    pure (.program .ok)

def transfer (source target : Account) (value : UInt64) : NativeProgram ErrorCode := do
  if source = target then pure (.program .invalidArgument)
  else if ← permitted source then moveCoins source target value
  else pure (.program .unauthorized)

def mint (target : Account) (value : UInt64) : NativeProgram ErrorCode := do
  let supply ← totalSupply
  if maxWord - value < supply then pure (.program .overflow)
  else do
    let targetBalance ← balanceOf target
    storeObject supplyId [] (supply + value)
    storeObject balanceId target.1 (targetBalance + value)
    pure (.program .ok)

/-- The part of `burn` behind its guard. -/
def destroyCoins (source : Account) (value : UInt64) : NativeProgram ErrorCode := do
  let sourceBalance ← balanceOf source
  if sourceBalance < value then pure (.program .insufficientBalance)
  else do
    let supply ← totalSupply
    if supply < value then pure (.program .insufficientSupply)
    else do
      storeObject supplyId [] (supply - value)
      storeObject balanceId source.1 (sourceBalance - value)
      pure (.program .ok)

def burn (source : Account) (value : UInt64) : NativeProgram ErrorCode := do
  if ← permitted source then destroyCoins source value
  else pure (.program .unauthorized)

/-- Execute a request. -/
def execute : Request → NativeProgram ErrorCode
  | .authorize => writeOut [0]
  | .name => writeOut [67, 111, 105, 110]
  | .symbol => writeOut [67, 79, 73, 78]
  | .decimals => writeOut (littleEndian 4 8)
  | .totalSupply => do
      let supply ← totalSupply
      writeOut (storeWord supply)
  | .balanceOf account => do
      let balance ← balanceOf account
      writeOut (storeWord balance)
  | .transfer source target value => transfer source target value
  | .mint target value => mint target value
  | .burn source value => burn source value
  | .unknown => pure (.program .invalidInstruction)

/-- One run of the program. -/
def run (locals : Locals) : NativeProgram ErrorCode := do
  let request ← readRequest locals
  execute request

/-! What the parts of a run can call. -/

def IsRead : SystemCall → Prop
  | .read _ _ => True
  | _ => False

def IsObjectCall : SystemCall → Prop
  | .getObject _ _ => True
  | .putObject _ _ _ => True
  | _ => False

/-- Calls that store nothing under the program's own keys. -/
def Observes : SystemCall → Prop
  | .putObject _ _ _ => False
  | .removeObject _ _ => False
  | .callProgram _ _ _ => False
  | _ => True

/-- Calls other than running a program. -/
def CallsNoProgram : SystemCall → Prop
  | .callProgram _ _ _ => False
  | _ => True

theorem IsRead.callsNoProgram : ∀ request, IsRead request → CallsNoProgram request
  | .read _ _, _ => trivial

theorem IsObjectCall.callsNoProgram : ∀ request, IsObjectCall request → CallsNoProgram request
  | .getObject _ _, _ => trivial
  | .putObject _ _ _, _ => trivial

theorem Observes.callsNoProgram (request : SystemCall) (observes : Observes request) :
    CallsNoProgram request := by
  cases request <;> trivial

theorem readOver_issues (buffer : Bytes) : (readOver buffer).Issues IsRead :=
  issues_bind (issues_perform trivial) fun _ => issues_pure _

theorem readAccount_issues (local_ : Account) : (readAccount local_).Issues IsRead :=
  issues_bind (readOver_issues _) fun _ => issues_pure _

theorem readValue_issues : readValue.Issues IsRead :=
  issues_bind (readOver_issues _) fun _ => issues_pure _

/-- Nothing but reads comes before a request is known. -/
theorem readRequest_issues (locals : Locals) : (readRequest locals).Issues IsRead := by
  refine issues_bind ?_ fun instruction => ?_
  · exact issues_bind (readOver_issues _) fun _ => issues_pure _
  · split
    all_goals first
      | exact issues_pure _
      | refine issues_bind (readAccount_issues _) fun _ => ?_
    · exact issues_pure _
    · exact issues_bind (readAccount_issues _) fun _ =>
        issues_bind readValue_issues fun _ => issues_pure _
    · exact issues_bind readValue_issues fun _ => issues_pure _
    · exact issues_bind readValue_issues fun _ => issues_pure _

/-- Loading a word asks for one object. -/
theorem storedWord_issues {allowed : SystemCall → Prop} (id : UInt32) (key : Bytes)
    (inside : allowed (.getObject id key)) : (storedWord id key).Issues allowed :=
  issues_bind (issues_perform inside) fun _ =>
    issues_ite (issues_pure _)
      (issues_ite (issues_pure _) (issues_stop _))

/-- Storing a word asks for and puts objects. -/
theorem storeObject_issues (id : UInt32) (key : Bytes) (word : UInt64) :
    (storeObject id key word).Issues IsObjectCall :=
  issues_bind (issues_perform trivial) fun _ => issues_pure _

/-- Behind its guard a transfer handles objects only. -/
theorem moveCoins_issues (source target : Account) (value : UInt64) :
    (moveCoins source target value).Issues IsObjectCall :=
  issues_bind (storedWord_issues _ _ trivial) fun _ =>
    issues_ite (issues_pure _)
      (issues_bind (storedWord_issues _ _ trivial) fun _ =>
        issues_bind (storeObject_issues _ _ _) fun _ =>
          issues_bind (storeObject_issues _ _ _) fun _ => issues_pure _)

/-- Behind its guard a burn handles objects only. -/
theorem destroyCoins_issues (source : Account) (value : UInt64) :
    (destroyCoins source value).Issues IsObjectCall :=
  issues_bind (storedWord_issues _ _ trivial) fun _ =>
    issues_ite (issues_pure _)
      (issues_bind (storedWord_issues _ _ trivial) fun _ =>
        issues_ite (issues_pure _)
          (issues_bind (storeObject_issues _ _ _) fun _ =>
            issues_bind (storeObject_issues _ _ _) fun _ => issues_pure _))

theorem writeOut_issues (bytes : Bytes) : (writeOut bytes).Issues Observes :=
  issues_bind (issues_perform trivial) fun _ => issues_pure _

/-- The test for permission observes only. -/
theorem permitted_issues (source : Account) : (permitted source).Issues Observes := by
  refine issues_bind (issues_perform trivial) fun _ =>
    issues_ite (issues_pure _)
      (issues_bind (issues_perform trivial) fun answer => ?_)
  cases answer with
  | ok _ => exact issues_pure _
  | error _ => exact issues_pure _

/-- No request of a coin calls a program. -/
theorem execute_issues (request : Request) : (execute request).Issues CallsNoProgram := by
  have guarded (source : Account) {action : NativeProgram ErrorCode}
      (acts : action.Issues IsObjectCall) : Interaction.Issues CallsNoProgram (do
        if ← permitted source then action else pure (.program .unauthorized)) :=
    issues_bind ((permitted_issues source).mono Observes.callsNoProgram) fun _ =>
      issues_ite (acts.mono IsObjectCall.callsNoProgram) (issues_pure _)
  have answers (bytes : Bytes) := (writeOut_issues bytes).mono Observes.callsNoProgram
  cases request with
  | authorize => exact answers _
  | name => exact answers _
  | symbol => exact answers _
  | decimals => exact answers _
  | totalSupply => exact issues_bind (storedWord_issues _ _ trivial) fun _ => answers _
  | balanceOf account =>
    exact issues_bind (storedWord_issues _ _ trivial) fun _ => answers _
  | transfer source target value =>
    exact issues_ite (issues_pure _)
      (guarded source (moveCoins_issues source target value))
  | mint target value =>
    have stores (id : UInt32) (key : Bytes) (word : UInt64) :=
      (storeObject_issues id key word).mono IsObjectCall.callsNoProgram
    exact issues_bind (storedWord_issues _ _ trivial) fun _ =>
      issues_ite (issues_pure _)
        (issues_bind (storedWord_issues _ _ trivial) fun _ =>
          issues_bind (stores _ _ _) fun _ =>
            issues_bind (stores _ _ _) fun _ => issues_pure _)
  | burn source value => exact guarded source (destroyCoins_issues source value)
  | unknown => exact issues_pure _

/-- The coin program runs no other program by itself. -/
theorem run_issues (locals : Locals) : (run locals).Issues CallsNoProgram :=
  issues_bind ((readRequest_issues locals).mono IsRead.callsNoProgram) execute_issues

end Respublica.Program.Coin
