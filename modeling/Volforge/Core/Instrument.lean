import Volforge.Core.Types

/-!
# `Core.Instrument` — instrument identity and the registry

`InstrumentRegistry` interns underlying names and deduplicates contracts on a five-field `Key`. The two
`unordered_map`s are association lists: `emplace` appends, `find` looks up.

A name is a `std::string`, i.e. a byte string.
-/

namespace Volforge

/-- A byte string. -/
abbrev Bytes := List UInt8

/-- A contract. The defaults are those of the source: a spot, one share a lot, ticks of 0.05. -/
structure InstrumentSpec where
  id : InstrumentId := -1
  underlying : UnderlyingId := -1
  kind : InstrumentKind := .Spot
  expiry : Date := ⟨0⟩
  strike : Int32 := 0
  right : Right := .Call
  lotSize : Int32 := 1
  tickSize : Int32 := 5
deriving DecidableEq

namespace InstrumentSpec

def isOption (s : InstrumentSpec) : Bool := s.kind = .Option

end InstrumentSpec

/-- What the registry calls "an identical instrument". -/
structure Key where
  underlying : UnderlyingId
  kind : InstrumentKind
  expiry : Date
  strike : Int32
  right : UInt8
deriving DecidableEq

/-- Contracts and underlyings by their ids, each with an index by key or name. -/
structure InstrumentRegistry where
  specs : List InstrumentSpec := []
  byKey : List (Key × InstrumentId) := []
  underlyings : List Bytes := []
  underlyingIds : List (Bytes × UnderlyingId) := []
deriving DecidableEq

namespace InstrumentRegistry

def keyOf (s : InstrumentSpec) : Key where
  underlying := s.underlying
  kind := s.kind
  expiry := s.expiry
  strike := s.strike
  right := if s.kind = .Option then s.right.toByte else 0

/-- The id of a name, which is a new one if the name is new. -/
def internUnderlying (r : InstrumentRegistry) (name : Bytes) : InstrumentRegistry × UnderlyingId :=
  match r.underlyingIds.lookup name with
  | some id => (r, id)
  | none =>
      let id : UnderlyingId := r.underlyings.length
      ({ r with
          underlyings := r.underlyings ++ [name]
          underlyingIds := r.underlyingIds ++ [(name, id)] }, id)

def underlyingName (r : InstrumentRegistry) (id : UnderlyingId) : Except Error Bytes :=
  if id < 0 then .error (.outOfRange "unknown underlying id")
  else match r.underlyings[id.toNat]? with
    | some name => .ok name
    | none => .error (.outOfRange "unknown underlying id")

/-- Registers the instrument, or returns the existing id if an identical one is already known. -/
def add (r : InstrumentRegistry) (spec : InstrumentSpec) : InstrumentRegistry × InstrumentId :=
  let k := keyOf spec
  match r.byKey.lookup k with
  | some id => (r, id)
  | none =>
      let id : InstrumentId := r.specs.length
      ({ r with
          specs := r.specs ++ [{ spec with id := id }]
          byKey := r.byKey ++ [(k, id)] }, id)

def spec (r : InstrumentRegistry) (id : InstrumentId) : Except Error InstrumentSpec :=
  if id < 0 then .error (.outOfRange "unknown instrument id")
  else match r.specs[id.toNat]? with
    | some s => .ok s
    | none => .error (.outOfRange "unknown instrument id")

def findOption (r : InstrumentRegistry) (underlying : UnderlyingId) (expiry : Date) (strike : Int32)
    (right : Right) : Option InstrumentId :=
  r.byKey.lookup ⟨underlying, .Option, expiry, strike, right.toByte⟩

def findSpot (r : InstrumentRegistry) (underlying : UnderlyingId) : Option InstrumentId :=
  r.byKey.lookup ⟨underlying, .Spot, ⟨0⟩, 0, 0⟩

/-- Insertion into an ascending list without repetition, as `std::set` and `sort` + `unique` leave it. -/
def insertDate (d : Date) : List Date → List Date
  | [] => [d]
  | e :: es => if d < e then d :: e :: es else if d = e then e :: es else e :: insertDate d es

/-- Every distinct expiry known for an underlying, ascending. -/
def expiries (r : InstrumentRegistry) (underlying : UnderlyingId) : List Date :=
  r.specs.foldl (fun out s =>
    if s.underlying ≠ underlying then out
    else if s.kind = .Spot then out
    else if !s.expiry.valid then out
    else insertDate s.expiry out) []

end InstrumentRegistry

end Volforge
