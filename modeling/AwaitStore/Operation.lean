import AwaitStore.Wire.Fault

namespace AwaitStore

/-- To return the value of `key` as soon as `keyCond` has the value `valueCond`. -/
structure Wish where
  key : Key
  keyCond : Key
  valueCond : Value
  deriving DecidableEq, Repr

/-- An absent key has no value that could be waited for. -/
def Wish.holds (wish : Wish) (table : Table) : Bool := table[wish.keyCond]? == some wish.valueCond

inductive Operation where
  | put (key : Key) (value : Value)
  | get (key : Key)
  | multiPut (pairs : Table)
  | multiGet (keys : KeySet)
  | getWhen (wish : Wish)
  deriving DecidableEq

inductive StoreError where
  | unsupported (store operation : String)
  | connectionBroken
  | unexpectedReply (kind : Wire.Kind)
  | server (message : String)
  | connectionFailed
  | wire (error : Wire.WireError)
  deriving DecidableEq, Repr

def StoreError.message : StoreError → String
  | unsupported store operation => s!"operation not supported by the {store} backend: {operation}"
  | connectionBroken => "unable to receive response from server"
  | unexpectedReply kind => s!"wrong response type from server: {kind.name}"
  | server message => s!"server error: {message}"
  | connectionFailed => "connection error"
  | wire error => error.message

inductive Answer where
  | stored
  | value (value : Option Value)
  | values (pairs : Table)
  deriving DecidableEq

abbrev Outcome := Except StoreError Answer

structure Return where
  call : Nat
  outcome : Outcome

/-- Something that carries out operations. It starts a numbered call, runs until it is at rest, and
lists the calls that end in between: the new one, or ones that were waiting. -/
class Database (σ : Type) where
  perform : Nat → Operation → σ → σ × List Return

namespace Operation

def onTable (table : Table) : Operation → Option (Table × Answer)
  | put key value => some (table.insert key value, .stored)
  | get key => some (table, .value table[key]?)
  | multiPut pairs => some (table.putAll pairs.toList, .stored)
  | multiGet keys => some (table, .values (table.collect keys.toList))
  | getWhen wish => if wish.holds table then some (table, .value table[wish.key]?) else none

def writes : Operation → Option (List (Key × Value))
  | put key value => some [(key, value)]
  | multiPut pairs => some pairs.toList
  | get _ | multiGet _ | getWhen _ => none

end Operation

end AwaitStore
