import Volforge.Core.Instrument

/-!
# `Core.Costs` — transaction costs

Costs are an injected policy. `indianFnOCosts` is the default one.
-/

namespace Volforge

inductive Side where
  | Buy
  | Sell
deriving Repr, DecidableEq

def Side.opposite : Side → Side
  | .Buy => .Sell
  | .Sell => .Buy

/-- What is being charged. -/
structure CostContext where
  instrument : InstrumentSpec
  price : Price
  qty : Qty := 0
  side : Side := .Buy
  exercise : Bool := false
  intrinsic : Price := 0

/-- `CostPolicy`: one pure virtual function. -/
structure CostPolicy where
  costOf : CostContext → Money

variable {F : Type} [Double F]

/-- Statutory charges and brokerage for NSE equity derivatives; every field is a rate on premium turnover
    except the flat brokerage. -/
structure IndianFnORates (F : Type) [Double F] where
  sttSellPct : F := Double.lit 15 10000
  sttExercisePct : F := Double.lit 15 10000
  transactionPct : F := Double.lit 3553 10000000
  sebiPct : F := Double.lit 1 1000000
  ipftPct : F := Double.lit 1 1000000000
  stampBuyPct : F := Double.lit 3 100000
  gstPct : F := Double.lit 18 100
  brokeragePerOrder : Money := 2000

/-- `IndianFnOCosts::cost_of`. -/
def indianFnOCosts (rates : IndianFnORates F) : CostPolicy where
  costOf ctx :=
    if ctx.exercise then
      -- settlement is not a brokered order: only the exercise levy applies
      let intrinsic : F := Double.ofMinor ctx.intrinsic * Double.ofInt ctx.qty
      if !Double.lt Double.zero intrinsic then 0
      else Double.llround (intrinsic * rates.sttExercisePct * Double.ofInt 100)
    else
      let premium : F := Double.ofMinor ctx.price * Double.ofInt ctx.qty
      let brokerage : F := Double.ofMinor rates.brokeragePerOrder
      if !Double.lt Double.zero premium then
        Double.llround (brokerage * (Double.one + rates.gstPct) * Double.ofInt 100)
      else
        let exchange := premium * (rates.transactionPct + rates.sebiPct + rates.ipftPct)
        let gst := (brokerage + exchange) * rates.gstPct
        let statutory :=
          if ctx.side = .Sell then premium * rates.sttSellPct else premium * rates.stampBuyPct
        Double.llround ((brokerage + exchange + gst + statutory) * Double.ofInt 100)

/-- `NoCosts`: charges nothing. -/
def noCosts : CostPolicy := ⟨fun _ => 0⟩

def defaultCostPolicy (F : Type) [Double F] : CostPolicy := indianFnOCosts (F := F) {}

end Volforge
