import Mathlib.Tactic

/-!
# `Core.Types` — value types, calendar arithmetic and the arithmetic of `double`

Two kinds of numbers appear in the source and they are kept apart here.

* **Stored scalars** (columns, contract specifications, file fields) have the width the source gives them:
  `Int32`, `Int64`, `UInt32`. `Date` wraps the stored `yyyymmdd`.
* **Computed quantities** (times, prices inside the engine, quantities, money) are `Int`. The source adds
  them in signed 64-bit arithmetic, where an overflow has no defined result, so the model adds them exactly.

`double` is a parameter: `Double F` lists the operations the source applies to it, with no law about any of
them, so what is proved holds for IEEE arithmetic as for any other. `ℚ` is the instance the concrete runs
are evaluated in.
-/

namespace Volforge

/-! ## Errors -/

/-- The exceptions the source throws, with their messages. -/
inductive Error where
  | outOfRange (what : String)
  | invalidArgument (what : String)
  | logicError (what : String)
  | runtimeError (what : String)
deriving Repr, DecidableEq

/-! ## Time and money -/

/-- Nanoseconds since the Unix epoch, UTC. -/
abbrev Timestamp := Int

/-- `std::numeric_limits<std::int64_t>::min()`, the start value of every "last seen time" in the source. -/
def kNoTime : Timestamp := -2 ^ 63

/-- `Timestamp::from_seconds`. -/
def fromSeconds (s : Int) : Timestamp := s * 1000000000

/-- A price in paise. -/
abbrev Price := Int

/-- A monetary amount in paise. -/
abbrev Money := Int

/-- A quantity in contracts, never in lots. -/
abbrev Qty := Int

/-- The hundred paise of a rupee, as a literal of any field. -/
instance atLeastTwo_hundred : Nat.AtLeastTwo 100 := ⟨by decide⟩

/-- `price * quantity`. -/
def notional (p : Price) (q : Qty) : Money := p * q

/-! ## Dates -/

/-- A calendar date encoded as `yyyymmdd`. -/
structure Date where
  yyyymmdd : Int32
deriving Repr, DecidableEq

namespace Date

instance : LE Date := ⟨fun a b => a.yyyymmdd ≤ b.yyyymmdd⟩
instance : LT Date := ⟨fun a b => a.yyyymmdd < b.yyyymmdd⟩
instance (a b : Date) : Decidable (a ≤ b) := inferInstanceAs (Decidable (a.yyyymmdd ≤ b.yyyymmdd))
instance (a b : Date) : Decidable (a < b) := inferInstanceAs (Decidable (a.yyyymmdd < b.yyyymmdd))

/-- C++ integer division truncates towards zero. -/
def year (d : Date) : Int := d.yyyymmdd.toInt.tdiv 10000
def month (d : Date) : Int := (d.yyyymmdd.toInt.tdiv 100).tmod 100
def day (d : Date) : Int := d.yyyymmdd.toInt.tmod 100
def valid (d : Date) : Bool := 0 < d.yyyymmdd

end Date

/-- `static_cast<unsigned>`. -/
def toUnsigned (x : Int) : Nat := (x % 2 ^ 32).toNat

/-- Days since 1970-01-01 of a proleptic Gregorian date. The month and the day arrive as `unsigned`. -/
def daysFromCivil (y : Int) (m d : Nat) : Int :=
  let y := if m ≤ 2 then y - 1 else y
  let era := (if 0 ≤ y then y else y - 399).tdiv 400
  let yoe : Nat := toUnsigned (y - era * 400)
  let mp : Nat := (m + 9) % 2 ^ 32 % 12
  let doy : Nat := ((153 * mp + 2) / 5 + d + (2 ^ 32 - 1)) % 2 ^ 32
  let doe : Nat := (yoe * 365 + yoe / 4 - yoe / 100 + doy) % 2 ^ 32
  era * 146097 + (doe : Int) - 719468

/-- Day number of a date. -/
def Date.days (d : Date) : Int := daysFromCivil d.year (toUnsigned d.month) (toUnsigned d.day)

/-- Inverse of `daysFromCivil`. -/
def dateFromDays (z : Int) : Date :=
  let z := z + 719468
  let era := (if 0 ≤ z then z else z - 146096).tdiv 146097
  let doe := (z - era * 146097).toNat
  let yoe := (doe - doe / 1460 + doe / 36524 - doe / 146096) / 365
  let y := (yoe : Int) + era * 400
  let doy := doe - (365 * yoe + yoe / 4 - yoe / 100)
  let mp := (5 * doy + 2) / 153
  let d := doy - (153 * mp + 2) / 5 + 1
  let m := if mp < 10 then mp + 3 else mp - 9
  let year := y + (if m ≤ 2 then 1 else 0)
  ⟨Int32.ofInt (year * 10000 + (m : Int) * 100 + (d : Int))⟩

/-- Day of week, 0 = Sunday. 1970-01-01 was a Thursday. -/
def weekdayOf (d : Date) : Int := ((d.days + 4).tmod 7 + 7).tmod 7

def addDays (d : Date) (n : Int) : Date := dateFromDays (d.days + n)

/-- NSE trades at UTC+5:30. -/
def kISTOffsetSeconds : Int := 5 * 3600 + 30 * 60

/-- Absolute time of a local wall-clock second within a session. -/
def timestampOf (d : Date) (secondsOfDay utcOffsetSeconds : Int) : Timestamp :=
  fromSeconds (d.days * 86400 + secondsOfDay - utcOffsetSeconds)

example : timestampOf ⟨20250701⟩ (9 * 3600 + 15 * 60) kISTOffsetSeconds = 1751341500000000000 := by
  decide

/-! ## Classification -/

/-- `enum class Right : std::uint8_t`. A value read from a file may carry no enumerator's code. -/
inductive Right where
  | Call
  | Put
  | unnamed (code : UInt8) (h : 2 ≤ code)
deriving DecidableEq

/-- `enum class InstrumentKind : std::uint8_t`. -/
inductive InstrumentKind where
  | Spot
  | Future
  | Option
  | unnamed (code : UInt8) (h : 3 ≤ code)
deriving DecidableEq

/-- `static_cast<std::uint8_t>`. -/
def Right.toByte : Right → UInt8
  | .Call => 0
  | .Put => 1
  | .unnamed c _ => c

def Right.ofByte (c : UInt8) : Right :=
  if c = 0 then .Call else if c = 1 then .Put else if h : 2 ≤ c then .unnamed c h else .Call

def InstrumentKind.toByte : InstrumentKind → UInt8
  | .Spot => 0
  | .Future => 1
  | .Option => 2
  | .unnamed c _ => c

def InstrumentKind.ofByte (c : UInt8) : InstrumentKind :=
  if c = 0 then .Spot else if c = 1 then .Future else if c = 2 then .Option
  else if h : 3 ≤ c then .unnamed c h else .Spot

/-- A handle into an instrument registry; `-1` is the invalid one. -/
abbrev InstrumentId := Int

/-- Interned handle of an underlying; `-1` is the invalid one. -/
abbrev UnderlyingId := Int

/-- `valid(InstrumentId)`. -/
def validId (id : InstrumentId) : Bool := id ≠ -1

/-! ## The arithmetic of `double` -/

/-- The operations the source applies to `double`. No law is assumed: IEEE arithmetic is one instance. -/
class Double (F : Type) extends Add F, Sub F, Mul F, Div F, Neg F where
  /-- `static_cast<double>` of an integer. -/
  ofInt : Int → F
  /-- A decimal literal, as numerator and denominator. -/
  lit : Int → Nat → F
  abs : F → F
  sqrt : F → F
  exp : F → F
  log : F → F
  erfc : F → F
  lt : F → F → Bool
  le : F → F → Bool
  nan : F
  isNaN : F → Bool
  isFinite : F → Bool
  /-- `std::llround`. -/
  llround : F → Int

namespace Double

variable {F : Type} [Double F]

def zero : F := ofInt 0
def one : F := ofInt 1

/-- `std::max`: the second argument only when it is strictly larger. -/
def max (a b : F) : F := if lt a b then b else a

/-- `Price::to_double` and `Money::to_double`. -/
def ofMinor (m : Int) : F := ofInt m / ofInt 100

/-- `Price::from_double`: the rounded value is cut down to the 32 bits of a price. -/
def toPrice (v : F) : Price := (Int32.ofInt (llround (v * ofInt 100))).toInt

end Double

/-- Exact arithmetic on the rationals. The transcendental operations are only right at the arguments where
    they are rational (`exp 0 = 1`, `log 1 = 0`, `erfc 0 = 1`); concrete runs use no others. -/
instance : Double ℚ where
  ofInt n := n
  lit n d := (n : ℚ) / d
  abs x := |x|
  sqrt x := x
  exp _ := 1
  log _ := 0
  erfc _ := 1
  lt a b := a < b
  le a b := a ≤ b
  nan := 0
  isNaN _ := false
  isFinite _ := true
  llround x := if 0 ≤ x then ⌊x + 1 / 2⌋ else ⌈x - 1 / 2⌉

end Volforge
