import AwaitStore.Shell.Command

namespace AwaitStore.Shell

def entryText (entry : Key × Value) : String := s!"{entry.1} {Literal.bytes entry.2}"

def commandText : Operation → String
  | .put key value => s!"{Verb.put.name} {key} {Literal.bytes value}"
  | .get key => s!"{Verb.get.name} {key}"
  | .multiPut pairs =>
      s!"{Verb.multiPut.name} " ++ String.intercalate " " (pairs.toList.map entryText)
  | .multiGet keys => s!"{Verb.multiGet.name} " ++ String.intercalate " " keys.toList
  | .getWhen wish =>
      s!"{Verb.getWhen.name} {wish.key} {wish.keyCond} {Literal.bytes wish.valueCond}"

def answerText : Operation → Answer → String
  | _, .stored => ""
  | _, .value value => s!": {Literal.render value}"
  | .multiGet keys, .values pairs =>
      ":" ++ String.join (keys.toList.map fun key => s!"\n  {key}: {Literal.render pairs[key]?}")
  | _, .values _ => ":"

def completedText (op : Operation) (answer : Answer) : String :=
  s!"{commandText op} completed{answerText op answer}"

def backgroundedText : String := "Request backgrounded"

end AwaitStore.Shell
