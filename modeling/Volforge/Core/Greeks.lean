import Volforge.Core.Types

/-!
# `Core.Greeks` — pricing, implied volatility and Greeks

Black-76 on a forward, over any `Double`. Everything here is a pure function of its arguments.
-/

namespace Volforge

variable {F : Type} [Double F]

open Double

/-- The Greeks at one volatility. Theta is per calendar day. -/
structure GreekSet (F : Type) where
  iv : F
  price : F
  delta : F
  gamma : F
  vega : F
  theta : F

def kSqrt2 : F := lit 141421356237309504880 100000000000000000000
def kInvSqrt2Pi : F := lit 39894228040143267794 100000000000000000000

def normCdf (x : F) : F := lit 5 10 * erfc (-x / kSqrt2)
def normPdf (x : F) : F := kInvSqrt2Pi * exp (lit (-5) 10 * x * x)

/-- Value at expiry, or when volatility is zero. -/
def intrinsic (forward strike rate t : F) (right : Right) : F :=
  let df := exp (-rate * t)
  df * (if right = .Call then max zero (forward - strike) else max zero (strike - forward))

/-- What price and Greeks have in common. -/
structure D (F : Type) where
  d1 : F
  d2 : F
  sqrtT : F
  df : F

def computeD (forward strike t sigma rate : F) : D F :=
  let sqrtT := sqrt t
  let volSqrtT := sigma * sqrtT
  let d1 := (log (forward / strike) + lit 5 10 * sigma * sigma * t) / volSqrtT
  { d1 := d1, d2 := d1 - volSqrtT, sqrtT := sqrtT, df := exp (-rate * t) }

/-- No time, no volatility, or no price to take a logarithm of: the formulas fall back on the intrinsic value. -/
def degenerate (forward strike t sigma : F) : Bool :=
  !lt zero forward || !lt zero strike || !lt zero t || !lt zero sigma

/-- 15:30 local, the default `expiry_second_of_day`. -/
def kExpirySecondOfDay : Int := 15 * 3600 + 30 * 60

/-- Year fraction to expiry on ACT/365; 0 at or after expiry. -/
def timeToExpiry (now : Timestamp) (expiry : Date) (utcOffsetSeconds : Int) : F :=
  let end_ := timestampOf expiry kExpirySecondOfDay utcOffsetSeconds
  let seconds : F := ofInt (end_ - now) / ofInt 1000000000
  if le seconds zero then zero else seconds / (ofInt 365 * ofInt 86400)

/-- The value of a European option on a forward. -/
def black76Price (forward strike t sigma rate : F) (right : Right) : F :=
  if degenerate forward strike t sigma then intrinsic forward strike rate (max zero t) right
  else
    let d := computeD forward strike t sigma rate
    if right = .Call then d.df * (forward * normCdf d.d1 - strike * normCdf d.d2)
    else d.df * (strike * normCdf (-d.d2) - forward * normCdf (-d.d1))

def black76Greeks (forward strike t sigma rate : F) (right : Right) : GreekSet F :=
  if degenerate forward strike t sigma then
    let itm := if right = .Call then lt strike forward else lt forward strike
    { iv := sigma, price := intrinsic forward strike rate (max zero t) right,
      delta := if itm then (if right = .Call then one else ofInt (-1)) else zero,
      gamma := zero, vega := zero, theta := zero }
  else
    let d := computeD forward strike t sigma rate
    let pdfD1 := normPdf d.d1
    let price := black76Price forward strike t sigma rate right
    let decay := d.df * forward * pdfD1 * sigma / (ofInt 2 * d.sqrtT)
    { iv := sigma, price := price,
      delta := if right = .Call then d.df * normCdf d.d1 else -d.df * normCdf (-d.d1),
      gamma := d.df * pdfD1 / (forward * sigma * d.sqrtT),
      vega := d.df * forward * pdfD1 * d.sqrtT,
      theta := (rate * price - decay) / ofInt 365 }

/-- The loop of `implied_vol`: Newton steps inside a shrinking bracket. `left` counts the turns left. -/
def impliedVolLoop (marketPrice forward strike t rate df : F) (right : Right) : Nat → F → F → F → Option F
  | 0, lo, hi, sigma => if lt (hi - lo) (lit 1 1000000) then some sigma else none
  | left + 1, lo, hi, sigma =>
      let price := black76Price forward strike t sigma rate right
      let diff := price - marketPrice
      if lt (abs diff) (lit 1 100000000) then some sigma
      else
        -- the price rises with the volatility, so the bracket closes in on the solution
        let hi := if lt zero diff then sigma else hi
        let lo := if lt zero diff then lo else sigma
        let d := computeD forward strike t sigma rate
        let vega := df * forward * normPdf d.d1 * d.sqrtT
        let middle := lit 5 10 * (lo + hi)
        let next := if lt (lit 1 10000000000) vega then sigma - diff / vega else middle
        -- a Newton step that leaves the bracket is replaced by a bisection
        let next := if !(lt lo next && lt next hi) || !isFinite next then middle else next
        impliedVolLoop marketPrice forward strike t rate df right left lo hi next

/-- The volatility, between 0.01 % and 600 %, at which the option is worth its market price. -/
def impliedVol (marketPrice forward strike t rate : F) (right : Right) : Option F :=
  if !lt zero marketPrice || !lt zero forward || !lt zero strike || !lt zero t then none
  else
    let df := exp (-rate * t)
    let low := intrinsic forward strike rate t right
    let high := if right = .Call then df * forward else df * strike
    let slack : F := lit 1 1000000000
    -- below intrinsic or above the discounted bound: no volatility gives this price
    if lt marketPrice (low - slack) || lt (high + slack) marketPrice then none
    else
      let lo : F := lit 1 10000
      let hi : F := ofInt 6
      let pLo := black76Price forward strike t lo rate right
      let pHi := black76Price forward strike t hi rate right
      let tol := lit 1 1000000000 * max one (abs marketPrice)
      if lt (pHi + tol) marketPrice || lt marketPrice (pLo - tol) then none
      -- at the intrinsic floor there is no time value to invert
      else if le marketPrice pLo then some lo
      else impliedVolLoop marketPrice forward strike t rate df right 100 lo hi (lit 2 10)

def impliedGreeks (marketPrice forward strike t rate : F) (right : Right) : Option (GreekSet F) :=
  (impliedVol marketPrice forward strike t rate right).map
    (fun iv => black76Greeks forward strike t iv rate right)

/-! ## Forward by put-call parity -/

/-- Call and put of one strike. -/
structure ParityQuote (F : Type) where
  strike : F
  call : F
  put : F

/-- One turn of the loop of `forward_from_parity`; the accumulator holds the best quote and its gap. -/
def closerParity (best : Option (ParityQuote F × F)) (q : ParityQuote F) : Option (ParityQuote F × F) :=
  if !lt zero q.strike || !lt zero q.call || !lt zero q.put then best
  else
    let gap := abs (q.call - q.put)
    match best with
    | none => some (q, gap)
    | some (_, bestGap) => if lt gap bestGap then some (q, gap) else best

/-- The forward at the strike where call and put are closest in value. -/
def forwardFromParity (quotes : List (ParityQuote F)) (t rate : F) : Option F :=
  match quotes.foldl closerParity none with
  | none => none
  | some (best, _) =>
      let fwd := best.strike + exp (rate * t) * (best.call - best.put)
      if !lt zero fwd || !isFinite fwd then none else some fwd

end Volforge
