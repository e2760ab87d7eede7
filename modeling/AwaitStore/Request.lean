import AwaitStore.Operation
import AwaitStore.Wire.Message

namespace AwaitStore

open Wire (Message RequestId)

namespace Operation

def request (id : RequestId) : Operation → Message
  | put key value => .putRequest id key value
  | get key => .getRequest id key
  | multiPut pairs => .multiPutRequest id pairs
  | multiGet keys => .multiGetRequest id keys
  | getWhen wish => .getWhenRequest id wish.key wish.keyCond wish.valueCond

def ofRequest? : Message → Option (RequestId × Operation)
  | .putRequest id key value => some (id, put key value)
  | .getRequest id key => some (id, get key)
  | .multiPutRequest id pairs => some (id, multiPut pairs)
  | .multiGetRequest id keys => some (id, multiGet keys)
  | .getWhenRequest id key keyCond valueCond => some (id, getWhen ⟨key, keyCond, valueCond⟩)
  | _ => none

theorem ofRequest?_request (id : RequestId) (op : Operation) :
    ofRequest? (op.request id) = some (id, op) := by cases op <;> rfl

/-- A reply of another kind than the operation calls for is an error, and so is an error reply. -/
def outcome (op : Operation) (reply : Message) : Outcome :=
  match op, reply with
  | put .., .putResponse _ | multiPut _, .putResponse _ => .ok .stored
  | get _, .getResponse _ value | getWhen _, .getResponse _ value => .ok (.value value)
  | multiGet _, .multiGetResponse _ pairs => .ok (.values pairs)
  | _, .errorResponse _ message => .error (.server message)
  | _, other => .error (.unexpectedReply other.kind)

end Operation

def Outcome.reply (id : RequestId) : Outcome → Message
  | .ok .stored => .putResponse id
  | .ok (.value value) => .getResponse id value
  | .ok (.values pairs) => .multiGetResponse id pairs
  | .error e => .errorResponse id e.message

end AwaitStore
