/-!
# ExpandConvolute.Event

What the library reports while it works: that a code was configured, that an encoding began, and
that the coefficient buffer of a sweep was filled anew. An event has a level, a message and named
values; none of them is taken from the symbols of a codeword.
-/

namespace ExpandConvolute

inductive Level where
  | debug
  | trace
deriving DecidableEq, Repr

inductive Event where
  | configured (messageSize codeSize weight width : Nat) (systematic regular secondSweep : Bool)
  | encodeStarted (size : Nat)
  | windowsRefilled
deriving DecidableEq, Repr

namespace Event

def level : Event → Level
  | configured .. => .debug
  | encodeStarted _ => .trace
  | windowsRefilled => .trace

def message : Event → String
  | configured .. => "configured ExConv code"
  | encodeStarted _ => "dual encode"
  | windowsRefilled => "refilling accumulator coefficient buffer"

def flag (b : Bool) : String := if b then "true" else "false"

/-- The named values of an event, in the order in which they are written. -/
def fields : Event → List (String × String)
  | configured messageSize codeSize weight width systematic regular secondSweep =>
    [("k", Nat.repr messageSize), ("n", Nat.repr codeSize), ("bw", Nat.repr weight),
      ("aw", Nat.repr width), ("systematic", flag systematic), ("regular", flag regular),
      ("mix_twice", flag secondSweep)]
  | encodeStarted size => [("n", Nat.repr size)]
  | windowsRefilled => []

end Event
end ExpandConvolute
