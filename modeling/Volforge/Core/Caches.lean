import Volforge.Core.Backtest

/-!
# `Core.Caches` — the context with its two caches

The source's context keeps the forwards it has found, by expiry and instant, and the bar series it has built, by
instrument, interval and price. Binding a session empties both.

What a stretch of code asks of the context is a tree of questions, `Asks`: each next one may depend on the answers
so far. A tree is run without caches (`run`) or with them (`cached`). Greeks, margin, the level of a settlement and
the selection by delta are such trees.
-/

namespace Volforge

variable {F : Type} [Double F] {σ : Type}

open Double

/-- `forward_cache_` and `bar_cache_`. -/
structure Caches (F : Type) where
  forwards : List ((Int32 × Timestamp) × F) := []
  bars : List ((InstrumentId × Int × BarPrice) × BarSeries) := []

namespace Caches

/-- `Ctx::forward`. An expiry that has passed is not looked up; one without a forward is not kept. -/
def forward (k : Caches F) (c : Ctx F) (expiry : Date) : Option F × Caches F :=
  let t : F := timeToExpiry c.now expiry c.utcOffset
  if !lt zero t then (none, k)
  else match k.forwards.lookup (expiry.yyyymmdd, c.now) with
    | some fwd => (some fwd, k)
    | none =>
        match c.forward expiry with
        | none => (none, k)
        | some fwd => (some fwd, { k with forwards := k.forwards ++ [((expiry.yyyymmdd, c.now), fwd)] })

/-- `Ctx::bars`. A series that cannot be built is not kept. -/
def series (k : Caches F) (desk : Desk F) (e : Engine F σ) (id : InstrumentId) (intervalSeconds : Int)
    (source : BarPrice) : Except Error BarSeries × Caches F :=
  if intervalSeconds ≤ 0 then (.error (.invalidArgument "Ctx::bars: interval must be positive"), k)
  else match k.bars.lookup (id, intervalSeconds, source) with
    | some s => (.ok s, k)
    | none =>
        match e.buildBars desk id intervalSeconds source with
        | .error err => (.error err, k)
        | .ok s => (.ok s, { k with bars := k.bars ++ [((id, intervalSeconds, source), s)] })

end Caches

/-! ## Questions -/

/-- What code asks of the context before it has its result. -/
inductive Asks (F : Type) (α : Type) where
  | answer (a : α)
  | look (next : Ctx F → Asks F α)
  | forward (expiry : Date) (next : Option F → Asks F α)
  | bars (id : InstrumentId) (intervalSeconds : Int) (source : BarPrice) (next : Except Error BarSeries → Asks F α)

namespace Asks

variable {α β : Type}

def bind : Asks F α → (α → Asks F β) → Asks F β
  | .answer a, f => f a
  | .look next, f => .look fun c => (next c).bind f
  | .forward expiry next, f => .forward expiry fun fwd => (next fwd).bind f
  | .bars id intervalSeconds source next, f => .bars id intervalSeconds source fun s => (next s).bind f

/-- A loop whose turns ask, and may throw. -/
def each {γ : Type} (turn : β → γ → Asks F (Except Error β)) : List γ → β → Asks F (Except Error β)
  | [], b => .answer (.ok b)
  | x :: xs, b => (turn b x).bind fun
      | .error err => .answer (.error err)
      | .ok b => each turn xs b

/-- Every question is answered anew. -/
def run (desk : Desk F) (e : Engine F σ) : Asks F α → α
  | .answer a => a
  | .look next => (next (e.ctx desk)).run desk e
  | .forward expiry next => (next ((e.ctx desk).forward expiry)).run desk e
  | .bars id intervalSeconds source next => (next (e.buildBars desk id intervalSeconds source)).run desk e

/-- Questions that have been answered before are answered from the caches. -/
def cached (desk : Desk F) (e : Engine F σ) : Asks F α → Caches F → α × Caches F
  | .answer a, k => (a, k)
  | .look next, k => (next (e.ctx desk)).cached desk e k
  | .forward expiry next, k =>
      let (fwd, k) := k.forward (e.ctx desk) expiry
      (next fwd).cached desk e k
  | .bars id intervalSeconds source next, k =>
      let (s, k) := k.series desk e id intervalSeconds source
      (next s).cached desk e k

/-! ### What the source asks -/

/-- `Ctx::greeks`. -/
def greeks (id : InstrumentId) : Asks F (Except Error (Option (GreekSet F))) :=
  .look fun c =>
    match c.registry.spec id with
    | .error err => .answer (.error err)
    | .ok spec =>
        if !spec.isOption then .answer (.ok none)
        else match c.market.current id with
          | none => .answer (.ok none)
          | some q =>
              if !q.twoSided then .answer (.ok none)
              else .forward spec.expiry fun
                | none => .answer (.ok none)
                | some fwd =>
                    let t : F := timeToExpiry c.now spec.expiry c.utcOffset
                    if !lt zero t then .answer (.ok none)
                    else .answer (.ok
                      (impliedGreeks (ofMinor q.mid) fwd (ofMinor spec.strike.toInt) t c.rate spec.right))

/-- One leg of the loop of `margin`. -/
def marginLeg (acc : List (Date × MarginLeg F)) (leg : Leg) : Asks F (Except Error (List (Date × MarginLeg F))) :=
  if !leg.live then .answer (.ok acc)
  else .look fun c =>
    match c.registry.spec leg.instrument with
    | .error err => .answer (.error err)
    | .ok spec =>
        if !spec.isOption then .answer (.ok acc)
        else (greeks leg.instrument).bind fun
          | .error err => .answer (.error err)
          | .ok none => .answer (.ok acc)
          | .ok (some g) => .answer (.ok (acc ++ [(spec.expiry, ⟨spec.right, ofMinor spec.strike.toInt, leg.qty, g.iv⟩)]))

/-- The requirement of one expiry. -/
def requirement (total : MarginResult F) (group : Date × List (MarginLeg F)) : Asks F (Except Error (MarginResult F)) :=
  .look fun c => .forward group.1 fun
    | none => .answer (.ok total)
    | some fwd =>
        let t : F := timeToExpiry c.now group.1 c.utcOffset
        if !lt zero t then .answer (.ok total)
        else
          let r := c.margin.requirement group.2 fwd t c.rate
          .answer (.ok { total with
            span := total.span + r.span
            exposure := total.exposure + r.exposure
            total := total.total + r.total
            scanningRisk := total.scanningRisk + r.scanningRisk
            netOptionValue := total.netOptionValue + r.netOptionValue
            floorApplied := total.floorApplied || r.floorApplied })

/-- `Ctx::margin`. -/
def margin : Asks F (Except Error (MarginResult F)) :=
  .look fun c => (each marginLeg (c.portfolio.positions.flatMap (·.legs)) []).bind fun
    | .error err => .answer (.error err)
    | .ok legs => each requirement (Ctx.byExpiry legs) .empty

/-- The first expiry of a list that has a forward. -/
def firstForward : List Date → Asks F (Option F)
  | [] => .answer none
  | d :: ds => .forward d fun
      | some fwd => .answer (some fwd)
      | none => firstForward ds

/-- `settlement_level`. -/
def settlementLevel (spot : InstrumentId) (expiry : Date) : Asks F (Option F) :=
  .look fun c =>
    let print : Option F :=
      if validId spot then (c.market.current spot).bind (fun q => if 0 < q.last then some (ofMinor q.last) else none)
      else none
    match print with
    | some level => .answer (some level)
    | none => firstForward (expiry :: c.expiries.filter (fun d => ¬ d ≤ expiry))

/-- One strike of the loop of `by_delta`. -/
def closerDelta (v : ChainView) (want : F) (right : Right) (best : Option (InstrumentId × F)) (strike : Int32) :
    Asks F (Except Error (Option (InstrumentId × F))) :=
  .look fun c =>
    match v.option c strike right with
    | none => .answer (.ok best)
    | some id => (greeks id).bind fun
        | .error err => .answer (.error err)
        | .ok none => .answer (.ok best)
        | .ok (some g) =>
            let gap := abs (abs g.delta - want)
            .answer (.ok (match best with
              | none => some (id, gap)
              | some (_, bestGap) => if lt gap bestGap then some (id, gap) else best))

/-- `ChainView::by_delta`. -/
def byDelta (v : ChainView) (target : F) (right : Right) : Asks F (Except Error (Option InstrumentId)) :=
  (each (closerDelta v (abs target) right) v.strikes none).bind fun
    | .error err => .answer (.error err)
    | .ok best => .answer (.ok (best.map (·.1)))

end Asks

/-! ## A run of questions -/

/-- What happens to a context between two questions. -/
inductive ContextTurn (F : Type) (α : Type) where
  | ask (question : Asks F α)
  | clock (t : Timestamp)
  | bind (session : SessionData) (date : Date)
  | trade (p : Portfolio F)

namespace ContextTurn

variable {α : Type}

/-- The engine after a turn. -/
def engine (e : Engine F σ) : ContextTurn F α → Engine F σ
  | .ask _ => e
  | .clock t => { e with clock := t }
  | .bind session date => e.bindSession session date
  | .trade p => { e with portfolio := p }

/-- The answers of a run without caches. -/
def answers (desk : Desk F) : Engine F σ → List (ContextTurn F α) → List α
  | _, [] => []
  | e, turn :: turns =>
      match turn with
      | .ask question => question.run desk e :: answers desk e turns
      | turn => answers desk (turn.engine e) turns

/-- The answers of a run with caches, and the caches at its end. -/
def cachedAnswers (desk : Desk F) : Engine F σ → Caches F → List (ContextTurn F α) → List α × Caches F
  | _, k, [] => ([], k)
  | e, k, turn :: turns =>
      match turn with
      | .ask question =>
          let (a, k) := question.cached desk e k
          let (rest, k) := cachedAnswers desk e k turns
          (a :: rest, k)
      | .bind session date => cachedAnswers desk (e.bindSession session date) {} turns
      | turn => cachedAnswers desk (turn.engine e) k turns

end ContextTurn

end Volforge
