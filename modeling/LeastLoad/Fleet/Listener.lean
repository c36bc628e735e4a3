import LeastLoad.Endpoint.Load

/-! # Listeners

A listener is told of every unit handed out and of every unit finished. A call that fails is
logged and affects nothing else: the listeners after it are still called. -/

namespace LeastLoad

inductive Event where
  | created (e : Endpoint)
  | completed (e : Endpoint) (succeeded : Bool)
deriving DecidableEq

structure Listener where
  /-- Whether the listener takes down what it is told. -/
  records : Bool := true
  failsOn : Event → Bool := fun _ => false

/-- What a listener, known by its place among the listeners, did with an event. -/
inductive LogEntry where
  | heard (listener : Nat) (event : Event)
  | failed (listener : Nat) (event : Event)
deriving DecidableEq

namespace Listener

def call (l : Listener) (place : Nat) (event : Event) : List LogEntry :=
  (if l.records then [.heard place event] else []) ++
    if l.failsOn event then [.failed place event] else []

def notifyAll (listeners : List Listener) (event : Event) : List LogEntry :=
  listeners.zipIdx.flatMap fun (l, place) => l.call place event

end Listener

end LeastLoad
