import AwaitStore.Data

namespace AwaitStore.Wire

/-- Chosen by the client for a request and repeated in its reply. -/
abbrev RequestId := Int32

inductive AuthStatus where
  /-- A known user with the right password. -/
  | success
  /-- An unknown user, registered by this request. -/
  | newUser
  | wrongCredentials
  /-- The user, or the connection, holds a session already. -/
  | existingLogin
  deriving DecidableEq, Repr

namespace AuthStatus

def code : AuthStatus → Int32
  | success => 0
  | newUser => 1
  | wrongCredentials => 2
  | existingLogin => 3

def ofCode? (code : Int32) : Option AuthStatus :=
  if code = 0 then some success
  else if code = 1 then some newUser
  else if code = 2 then some wrongCredentials
  else if code = 3 then some existingLogin
  else none

def isSuccess : AuthStatus → Bool
  | success | newUser => true
  | wrongCredentials | existingLogin => false

theorem ofCode?_eq_some_iff (c : Int32) (s : AuthStatus) : ofCode? c = some s ↔ c = s.code := by
  constructor
  · intro h
    unfold ofCode? at h
    split at h
    · cases h; assumption
    split at h
    · cases h; assumption
    split at h
    · cases h; assumption
    split at h
    · cases h; assumption
    cases h
  · rintro rfl
    cases s <;> rfl

end AuthStatus

inductive Kind where
  | putRequest
  | getRequest
  | multiPutRequest
  | multiGetRequest
  | getWhenRequest
  | putResponse
  | getResponse
  | multiGetResponse
  | authRequest
  | authResponse
  | errorResponse
  deriving DecidableEq, Repr

namespace Kind

def tag : Kind → UInt8
  | putRequest => 1
  | getRequest => 2
  | multiPutRequest => 3
  | multiGetRequest => 4
  | getWhenRequest => 5
  | putResponse => 6
  | getResponse => 7
  | multiGetResponse => 8
  | authRequest => 9
  | authResponse => 10
  | errorResponse => 11

def all : List Kind :=
  [putRequest, getRequest, multiPutRequest, multiGetRequest, getWhenRequest, putResponse, getResponse,
    multiGetResponse, authRequest, authResponse, errorResponse]

def ofTag? (t : UInt8) : Option Kind := all.find? (fun kind => kind.tag = t)

def name : Kind → String
  | putRequest => "PutRequest"
  | getRequest => "GetRequest"
  | multiPutRequest => "MultiPutRequest"
  | multiGetRequest => "MultiGetRequest"
  | getWhenRequest => "GetWhenRequest"
  | putResponse => "PutResponse"
  | getResponse => "GetResponse"
  | multiGetResponse => "MultiGetResponse"
  | authRequest => "AuthRequest"
  | authResponse => "AuthResponse"
  | errorResponse => "ErrorResponse"

theorem ofTag?_tag (kind : Kind) : ofTag? kind.tag = some kind := by cases kind <;> rfl

theorem tag_of_ofTag? {t : UInt8} {kind : Kind} (h : ofTag? t = some kind) : kind.tag = t := by
  simpa using List.find?_some h

end Kind

inductive Message where
  | putRequest (id : RequestId) (key : Key) (value : Value)
  | getRequest (id : RequestId) (key : Key)
  | multiPutRequest (id : RequestId) (pairs : Table)
  | multiGetRequest (id : RequestId) (keys : KeySet)
  | getWhenRequest (id : RequestId) (key keyCond : Key) (valueCond : Value)
  | putResponse (requestId : RequestId)
  | getResponse (requestId : RequestId) (value : Option Value)
  | multiGetResponse (requestId : RequestId) (pairs : Table)
  | authRequest (username password : String)
  | authResponse (status : AuthStatus)
  | errorResponse (requestId : RequestId) (message : String)
  deriving DecidableEq

namespace Message

def kind : Message → Kind
  | putRequest .. => .putRequest
  | getRequest .. => .getRequest
  | multiPutRequest .. => .multiPutRequest
  | multiGetRequest .. => .multiGetRequest
  | getWhenRequest .. => .getWhenRequest
  | putResponse .. => .putResponse
  | getResponse .. => .getResponse
  | multiGetResponse .. => .multiGetResponse
  | authRequest .. => .authRequest
  | authResponse .. => .authResponse
  | errorResponse .. => .errorResponse

def id? : Message → Option RequestId
  | putRequest id .. | getRequest id .. | multiPutRequest id .. | multiGetRequest id ..
  | getWhenRequest id .. => some id
  | _ => none

def requestId? : Message → Option RequestId
  | putResponse id | getResponse id .. | multiGetResponse id .. | errorResponse id .. => some id
  | _ => none

end Message

end AwaitStore.Wire
