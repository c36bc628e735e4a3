/-! # Named series and their registry

Every balancer counts its work in seven series, whose names join a common start to a fixed end.
A registry publishes series under their names and refuses a name it already holds. -/

namespace LeastLoad

inductive Series where
  | inflight
  | requestRate
  | requestCov
  | requests
  | successes
  | failures
  | exhausted
deriving DecidableEq

inductive SeriesKind where
  | gauge
  | counter
deriving DecidableEq

namespace Series

def all : List Series :=
  [inflight, requestRate, requestCov, requests, successes, failures, exhausted]

def ending : Series → String
  | inflight => "_inflight"
  | requestRate => "_request_rate"
  | requestCov => "_request_cov"
  | requests => "_requests_total"
  | successes => "_successes_total"
  | failures => "_failures_total"
  | exhausted => "_exhausted_total"

def kind : Series → SeriesKind
  | inflight | requestRate | requestCov => .gauge
  | requests | successes | failures | exhausted => .counter

def help : Series → String
  | inflight => "Tasks dispatched and not yet completed"
  | requestRate => "Requests per second over the rate window"
  | requestCov => "Coefficient of variation of in-flight load across endpoints"
  | requests => "Tasks dispatched"
  | successes => "Tasks completed successfully"
  | failures => "Tasks completed with a failure"
  | exhausted => "Selections that found no eligible endpoint"

end Series

namespace SeriesName

def opens (c : Char) : Bool := c.isAlpha || c = '_' || c = ':'

def follows (c : Char) : Bool := opens c || c.isDigit

/-- A series name opens with a letter, an underscore or a colon; digits may follow. -/
def Valid (name : List Char) : Prop :=
  ∃ c cs, name = c :: cs ∧ opens c ∧ ∀ d ∈ cs, follows d

/-- Puts an underscore for every character that may not stand where it does. -/
def sanitize : List Char → List Char
  | [] => []
  | c :: cs => (if opens c then c else '_') :: cs.map fun d => if follows d then d else '_'

end SeriesName

structure Exposition where
  stem : String
  inflight : Int := 0
  requestRate : Float := 0
  requestCov : Float := 0
  requests : Nat := 0
  successes : Nat := 0
  failures : Nat := 0
  exhausted : Nat := 0

namespace Exposition

def defaultStem : String := "heddle"

/-- Fresh series whose names start with `stem`, made fit for a name. -/
def named (stem : String) : Exposition :=
  { stem := String.ofList (SeriesName.sanitize stem.toList) }

def name (e : Exposition) (s : Series) : String := e.stem ++ s.ending

def value (e : Exposition) : Series → Float
  | .inflight => Float.ofInt e.inflight
  | .requestRate => e.requestRate
  | .requestCov => e.requestCov
  | .requests => Float.ofNat e.requests
  | .successes => Float.ofNat e.successes
  | .failures => Float.ofNat e.failures
  | .exhausted => Float.ofNat e.exhausted

def recordRequest (e : Exposition) : Exposition :=
  { e with requests := e.requests + 1, inflight := e.inflight + 1 }

def recordCompletion (e : Exposition) (succeeded : Bool) : Exposition :=
  if succeeded then { e with successes := e.successes + 1, inflight := e.inflight - 1 }
  else { e with failures := e.failures + 1, inflight := e.inflight - 1 }

def recordExhausted (e : Exposition) : Exposition := { e with exhausted := e.exhausted + 1 }

def text (e : Exposition) : String :=
  "HeddleMetrics \x7b inflight: " ++ toString e.inflight ++ ", requests: " ++ toString e.requests ++
    ", successes: " ++ toString e.successes ++ ", failures: " ++ toString e.failures ++ " \x7d"

end Exposition

/-- A published series: its name, the number of its owner, and which of the owner's series it is. -/
structure Listing where
  name : String
  owner : Nat
  series : Series
deriving DecidableEq

structure Sample where
  name : String
  kind : SeriesKind
  help : String
  value : Float

structure Registry where
  listings : List Listing := []

namespace Registry

def holds (r : Registry) (name : String) : Bool := r.listings.any (·.name = name)

/-- Lists the given series one after another, up to the first whose name is taken; tells whether
all were listed. -/
def list (r : Registry) (owner : Nat) (e : Exposition) : List Series → Bool × Registry
  | [] => (true, r)
  | s :: rest =>
    if r.holds (e.name s) then (false, r)
    else list ⟨r.listings ++ [⟨e.name s, owner, s⟩]⟩ owner e rest

def register (r : Registry) (owner : Nat) (e : Exposition) : Bool × Registry :=
  r.list owner e Series.all

/-- The current value of every listed series, in the order of names. -/
def gather (r : Registry) (current : Nat → Option Exposition) : List Sample :=
  let sorted := r.listings.mergeSort fun a b => decide (a.name ≤ b.name)
  sorted.filterMap fun l =>
    (current l.owner).map fun e => ⟨l.name, l.series.kind, l.series.help, e.value l.series⟩

end Registry

end LeastLoad
