namespace AwaitStore.Bench

inductive Action where
  | put
  | get
  | multiPut
  | multiGet
  | getWhen
  deriving DecidableEq, Repr

namespace Action

def name : Action → String
  | put => "PUT"
  | get => "GET"
  | multiPut => "MULTI_PUT"
  | multiGet => "MULTI_GET"
  | getWhen => "GET_WHEN"

def all : List Action := [put, get, multiPut, multiGet, getWhen]

/-- How long a conditional read takes says when its condition came true and little else, so it is not
measured. -/
def timed : List Action := [put, get, multiPut, multiGet]

def ofName? (name : String) : Option Action := all.find? (·.name == name)

end Action

end AwaitStore.Bench
