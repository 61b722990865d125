/-!
# PayloadKey — names for stored payloads without a central sequencer

A key is the time in milliseconds, the client and a counter, joined by dashes. The time is kept to
41 bits and the counter to 20, so that a client repeats a key only when its counter has gone once
around within one (masked) millisecond.
-/

namespace SimRelay

/-- One client's source of keys. -/
structure KeySource where
  clientId : String
  /-- The counter of the last key given out. -/
  counter : Nat := 0
  deriving DecidableEq, Repr, Inhabited

namespace KeySource

/-- Where the counter starts again. -/
def counterLimit : Nat := 1 <<< 20

/-- Where the time starts again. -/
def millisLimit : Nat := 1 <<< 41

/-- The key of a time, a client and a counter. -/
def key (millis : Nat) (clientId : String) (counter : Nat) : String :=
  toString (millis % millisLimit) ++ "-" ++ clientId ++ "-" ++ toString counter

/-- The source after `n` more keys. -/
def skip (n : Nat) (s : KeySource) : KeySource :=
  { s with counter := (s.counter + n) % counterLimit }

/-- The next key, at a time. -/
def next (millis : Nat) (s : KeySource) : String × KeySource :=
  let s := s.skip 1
  (key millis s.clientId s.counter, s)

/-- The next keys, one for each time. -/
def take : List Nat → KeySource → List String × KeySource
  | [], s => ([], s)
  | millis :: later, s =>
    let (k, s) := s.next millis
    let (ks, s) := s.take later
    (k :: ks, s)

end KeySource

end SimRelay
