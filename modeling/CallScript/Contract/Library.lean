import CallScript.Contract.Computing
import CallScript.Contract.Executor
import CallScript.Contract.Reporting
import CallScript.Contract.Token

/-!
# The library of contracts

Every contract of the library has an alias, and from it an address.
-/

namespace CallScript

/-- The contracts of the library. -/
inductive Contract where
  | math
  | strings
  | events
  | sender
  | payable
  | revert
  | stateTest
  | multiReturn
  | tupler
  | token
  | executor
  deriving DecidableEq

namespace Contract

/-- All contracts, in the order in which they are deployed. -/
def library : List Contract :=
  [.math, .strings, .events, .sender, .payable, .revert, .stateTest, .multiReturn, .tupler, .token,
   .executor]

def code : Contract → Code
  | .math => Math.code
  | .strings => Strings.code
  | .events => Events.code
  | .sender => Sender.code
  | .payable => Payable.code
  | .revert => Revert.code
  | .stateTest => StateTest.code
  | .multiReturn => MultiReturn.code
  | .tupler => Tupler.code
  | .token => Token.code
  | .executor => Executor.code

/-- The contracts of the library do the same at every depth. -/
instance : Deployable Contract where
  name c := c.code.name
  code c _ := c.code

/-- The name by which scripts refer to a contract. -/
def shortName : Contract → String
  | .math => "math"
  | .strings => "strings"
  | .events => "events"
  | .sender => "sender"
  | .payable => "payable"
  | .revert => "revert"
  | .stateTest => "state"
  | .multiReturn => "multireturn"
  | .tupler => "tupler"
  | .token => "token"
  | .executor => "executor"

def ofAlias? (name : String) : Option Contract :=
  library.find? (·.shortName = name)

/-- The address that belongs to an alias. -/
def addressOf (name : String) : Address :=
  (Word.keccak [Bytes.ofText "opchain.library.", Bytes.ofText name]).toAddress

/-- The address at which a contract is deployed. -/
def address (c : Contract) : Address :=
  addressOf c.shortName

/-- The address of every contract under its alias. -/
def aliases : List (String × Address) :=
  library.map fun c => (c.shortName, c.address)

end Contract

end CallScript
