import Volforge.Core.Greeks

/-!
# `Core.Margin` — margin requirement of a book of options

The margin model is injected; `spanMargin` is the default one, a scan over sixteen scenarios.
-/

namespace Volforge

variable {F : Type} [Double F]

open Double

/-- The percentages of the scan, with the defaults of the source. -/
structure SpanParameters (F : Type) [Double F] where
  priceScanPct : F := lit 35 1000
  volScanPct : F := lit 10 100
  extremeMultiplier : F := ofInt 2
  extremeWeight : F := lit 33 100
  shortOptionMinimumPct : F := lit 15 1000
  exposurePct : F := lit 3 100

/-- One option position, for margining. -/
structure MarginLeg (F : Type) where
  right : Right
  strike : F
  qty : Qty
  iv : F

structure MarginResult (F : Type) where
  span : Money := 0
  exposure : Money := 0
  total : Money := 0
  scanningRisk : F
  shortOptionMin : F
  netOptionValue : F
  worstScenario : Int := -1
  floorApplied : Bool := false

/-- A result with nothing required. -/
def MarginResult.empty : MarginResult F where
  scanningRisk := zero
  shortOptionMin := zero
  netOptionValue := zero

/-- A move of price and volatility, as fractions of their scan ranges, and the share of its loss that counts. -/
structure Scenario (F : Type) where
  priceFraction : F
  volFraction : F
  weight : F

def buildScenarios (extremeMultiplier extremeWeight : F) : List (Scenario F) :=
  let third : F := ofInt 1 / ofInt 3
  let twoThirds : F := ofInt 2 / ofInt 3
  let up : F := one
  let down : F := -one
  [⟨zero, up, one⟩, ⟨zero, down, one⟩,
   ⟨third, up, one⟩, ⟨third, down, one⟩,
   ⟨-third, up, one⟩, ⟨-third, down, one⟩,
   ⟨twoThirds, up, one⟩, ⟨twoThirds, down, one⟩,
   ⟨-twoThirds, up, one⟩, ⟨-twoThirds, down, one⟩,
   ⟨one, up, one⟩, ⟨one, down, one⟩,
   ⟨-one, up, one⟩, ⟨-one, down, one⟩,
   ⟨extremeMultiplier, zero, extremeWeight⟩,
   ⟨-extremeMultiplier, zero, extremeWeight⟩]

/-- The value of the book after a shift of the forward and a scaling of the volatilities. -/
def portfolioValue (legs : List (MarginLeg F)) (forward t rate priceShift volScale : F) : F :=
  legs.foldl (fun value leg =>
    let sigma := max (lit 1 10000) (leg.iv * volScale)
    let px := black76Price (forward + priceShift) leg.strike t sigma rate leg.right
    value + px * ofInt leg.qty) zero

/-- The scenario loop: the worst loss seen and the scenario it came from. -/
def scanScenarios (legs : List (MarginLeg F)) (forward t rate base scan volScanPct : F)
    (scenarios : List (Scenario F)) : F × Int :=
  scenarios.zipIdx.foldl (fun worst x =>
    let s := x.1
    let shifted := portfolioValue legs forward t rate (s.priceFraction * scan)
      (one + s.volFraction * volScanPct)
    let loss := (base - shifted) * s.weight
    if lt worst.1 loss then (loss, (x.2 : Int)) else worst) (zero, -1)

/-- The worst scenario or the short option minimum, whichever is more, and the exposure on top of it. -/
def spanMargin (p : SpanParameters F) (legs : List (MarginLeg F)) (forward t rate : F) : MarginResult F :=
  if legs.isEmpty || !lt zero forward then .empty
  -- nothing short, nothing required
  else if !legs.any (fun l => l.qty < 0) then .empty
  else
    let base := portfolioValue legs forward t rate zero one
    let scan := forward * p.priceScanPct
    let (scanningRisk, worst) := scanScenarios legs forward t rate base scan p.volScanPct
      (buildScenarios p.extremeMultiplier p.extremeWeight)
    let shortContracts := (legs.map (fun l => if l.qty < 0 then -l.qty else 0)).sum
    let longContracts := (legs.map (fun l => if l.qty < 0 then 0 else l.qty)).sum
    -- long options offset short ones, contract for contract
    let netShort : Qty := Max.max 0 (shortContracts - longContracts)
    let shortNotional := forward * ofInt netShort
    let shortOptionMin := shortNotional * p.shortOptionMinimumPct
    let floorApplied := lt scanningRisk shortOptionMin
    let spanValue := if floorApplied then shortOptionMin else scanningRisk
    let exposure := shortNotional * p.exposurePct
    let span : Money := llround (spanValue * ofInt 100)
    let exposureMoney : Money := llround (exposure * ofInt 100)
    { span := span, exposure := exposureMoney, total := span + exposureMoney,
      scanningRisk := scanningRisk, shortOptionMin := shortOptionMin, netOptionValue := base,
      worstScenario := worst, floorApplied := floorApplied }

/-- `MarginModel`: one pure virtual function. -/
structure MarginModel (F : Type) where
  requirement : List (MarginLeg F) → F → F → F → MarginResult F

def defaultMarginModel : MarginModel F := ⟨spanMargin {}⟩

end Volforge
